import GarudaCodec.Foundation.PipelineBacklog
import GarudaCodec.Foundation.PipelineOrder
import GarudaCodec.Core.Dispatch
import GarudaCodec.Core.QueueOrder

/-! # How far the order of the packets strays

The workers of an encoder are not in step, so that packets of a later block can be written before
packets of an earlier one.  A worker that falls behind lets its queue fill up, though, and then the
dispatcher waits for it.  So blocks that are further apart than the queues can hold never change
places (`Link.packets_keep_close`).
-/

namespace GarudaCodec.Core

open GarudaCodec.Foundation
open GarudaCodec.Foundation.Lanes
open GarudaCodec.Foundation.Readers
open GarudaCodec.Foundation.Pipeline
open GarudaCodec.Core.Io
open GarudaCodec.Core.Link (systematicSetup wholeSession quiet_wholeSession)

variable {rq : Raptorq} {workers : Nat} {positive : 0 < workers}

/-! ## Blocks of one queue -/

/-- How far blocks that follow each other at a queue are apart at most.  Where the block number
    wraps, the queues do not go on in turn unless their number divides 256. -/
def stride (workers : Nat) : Nat :=
  if workers ∣ 256 then workers else 2 * workers

theorem stride_pos (positive : 0 < workers) : 0 < stride workers := by
  rw [stride]
  split
  · exact positive
  · omega

theorem exists_next_at_queue (positive : 0 < workers) (id : UInt8) :
    ∃ step, 0 < step ∧ step ≤ stride workers ∧
      queueOf positive (id + UInt8.ofNat step) = queueOf positive id := by
  have small : id.toNat < 256 := id.toNat_lt
  by_cases divides : workers ∣ 256
  · refine ⟨workers, positive, by simp [stride, divides], ?_⟩
    rw [queueOf, queueOf, Fin.mk.injEq, UInt8.toNat_add, UInt8.toNat_ofNat',
      Nat.mod_mod_of_dvd _ divides, Nat.add_mod, Nat.mod_mod_of_dvd _ divides, Nat.mod_self,
      Nat.add_zero, Nat.mod_mod]
  · by_cases inside : id.toNat + workers < 256
    · refine ⟨workers, positive, by simp [stride, divides]; omega, ?_⟩
      rw [queueOf, queueOf, Fin.mk.injEq, UInt8.toNat_add, UInt8.toNat_ofNat',
        Nat.mod_eq_of_lt (show workers < 2 ^ 8 by omega), Nat.mod_eq_of_lt inside,
        Nat.add_mod_right]
    -- the number wraps, and its queue comes first again under its own number
    · have remainder := Nat.mod_lt id.toNat positive
      have below := Nat.mod_le id.toNat workers
      have wrapped : (id + UInt8.ofNat (256 - id.toNat + id.toNat % workers)).toNat =
          id.toNat % workers := by
        rw [UInt8.toNat_add, UInt8.toNat_ofNat']
        omega
      refine ⟨256 - id.toNat + id.toNat % workers, by omega, by simp [stride, divides]; omega, ?_⟩
      rw [queueOf, queueOf, Fin.mk.injEq, wrapped, Nat.mod_mod]

theorem sorted_numbered (position : Nat) (id : UInt8) (chunks : List (List UInt8)) :
    (numbered position id chunks).Pairwise fun earlier later => earlier.origin < later.origin := by
  rw [← List.pairwise_map (f := Sourced.origin) (R := (· < ·)), map_origin_numbered]
  exact List.pairwise_lt_range'

/-- The next block at the queue of a block, if the input is long enough. -/
theorem exists_next_block (positive : 0 < workers) {position : Nat} {id : UInt8}
    {chunks : List (List UInt8)} {block other : Sourced Block}
    (inNumbered : block ∈ numbered position id chunks) (member : other ∈ numbered position id chunks)
    (far : block.origin + stride workers ≤ other.origin) :
    ∃ next ∈ numbered position id chunks,
      queueOf positive next.item.id = queueOf positive block.item.id ∧
      block.origin < next.origin ∧ next.origin ≤ block.origin + stride workers := by
  obtain ⟨idx, inside, rfl⟩ := List.mem_mapIdx.mp inNumbered
  obtain ⟨last, lastInside, rfl⟩ := List.mem_mapIdx.mp member
  obtain ⟨step, stepPositive, short, sameQueue⟩ :=
    exists_next_at_queue positive (id + UInt8.ofNat idx)
  simp only at far
  have nextInside : idx + step < chunks.length := by omega
  refine ⟨_, List.mem_mapIdx.mpr ⟨idx + step, nextInside, rfl⟩, ?_, ?_, ?_⟩
  · rw [UInt8.ofNat_add, ← UInt8.add_assoc, sameQueue]
  · simp only
    omega
  · simp only
    omega

/-- Of the blocks between a block and one that is far behind it, many are at its queue. -/
theorem exists_blocks_behind (positive : 0 < workers) {position : Nat} {id : UInt8}
    {chunks : List (List UInt8)} {block other : Sourced Block}
    (inNumbered : block ∈ numbered position id chunks) (member : other ∈ numbered position id chunks)
    {count : Nat} (far : block.origin + count * stride workers ≤ other.origin) :
    ∃ behind : List (Sourced Block), behind.length = count ∧
      behind.Pairwise (fun earlier later => earlier.origin < later.origin) ∧
      ∀ later ∈ behind, later ∈ numbered position id chunks ∧
        queueOf positive later.item.id = queueOf positive block.item.id ∧
        block.origin < later.origin ∧ later.origin ≤ block.origin + count * stride workers := by
  induction count generalizing block with
  | zero => exact ⟨[], rfl, .nil, nofun⟩
  | succ count inductionHypothesis =>
    simp only [Nat.succ_mul] at far ⊢
    obtain ⟨next, nextMember, nextAtQueue, above, below⟩ :=
      exists_next_block positive inNumbered member (by omega)
    obtain ⟨behind, size, sorted, located⟩ := inductionHypothesis nextMember (by omega)
    refine ⟨next :: behind, by rw [List.length_cons, size], List.pairwise_cons.mpr ⟨?_, sorted⟩, ?_⟩
    · exact fun later isLater => (located later isLater).2.2.1
    · intro later isLater
      cases List.mem_cons.mp isLater with
      | inl isNext =>
        subst isNext
        exact ⟨nextMember, nextAtQueue, above, by omega⟩
      | inr isBehind =>
        obtain ⟨inBlocks, atQueue, fromNext, upTo⟩ := located later isBehind
        exact ⟨inBlocks, atQueue.trans nextAtQueue, by omega, by omega⟩

/-! ## One encoder -/

section Encoder

variable {encoder : BlockEncoder rq} {dispatcher : BlockDispatcher} {s : EncoderState rq workers}

/-- While a block waits, only the blocks that find room behind it are dispatched. -/
theorem origin_lt_of_waiting {position : Nat} {id : UInt8} {chunks : List (List UInt8)}
    {key : Fin workers} {front behind : List (Sourced Block)} {block : Sourced Block}
    (split : ((numbered position id chunks).filter fun item =>
      queueOf positive item.item.id = key) = front ++ block :: behind)
    (few : behind.length ≤ queueCapacity) : ∀ other ∈ numbered position id chunks,
      other.origin < block.origin + (queueCapacity + 1) * stride workers := by
  intro other member
  by_contra far
  have inLane : block ∈ (numbered position id chunks).filter fun item =>
      queueOf positive item.item.id = key := by simp [split]
  obtain ⟨inNumbered, atKey⟩ := List.mem_filter.mp inLane
  obtain ⟨later, size, sorted, located⟩ :=
    exists_blocks_behind positive inNumbered member (Nat.le_of_not_lt far)
  have all := ((sorted_numbered position id chunks).sublist
    (List.filter_sublist (p := fun item => decide (queueOf positive item.item.id = key)))).imp
      Nat.le_of_lt
  rw [split, ← List.pairwise_map (f := Sourced.origin) (R := (· ≤ ·))] at all
  have many := length_le_behind all
    (List.Pairwise.imp Nat.ne_of_lt (List.pairwise_map.mpr sorted)) (by
      intro number isNumber
      obtain ⟨one, isLater, rfl⟩ := List.mem_map.mp isNumber
      obtain ⟨inBlocks, atQueue, above, -⟩ := located one isLater
      refine ⟨above, List.mem_map_of_mem ?_⟩
      rw [← split]
      exact List.mem_filter.mpr ⟨inBlocks, by simpa [atQueue] using atKey⟩)
  rw [List.length_map, size] at many
  omega

/-- A packet is one of the block that its worker has taken last. -/
theorem origins_of_moment {sent : List (Sourced Block)}
    {before : List (Fin workers × Sourced rq.EncodingPacket)} {key : Fin workers}
    {packet : Sourced rq.EncodingPacket}
    (moment : Moment (encoderProgram rq positive) (fun _ => encoder) sent before key packet) :
    (∃ front block behind, (sent.filter fun item => queueOf positive item.item.id = key) =
      front ++ block :: behind ∧ behind.length ≤ queueCapacity ∧ packet.origin = block.origin) ∧
    ∀ entry ∈ before, ∃ block ∈ sent, entry.2.origin = block.origin := by
  obtain ⟨split, few, ran, worked, -, handed, others⟩ := moment
  constructor
  · obtain ⟨rfl, -, -⟩ := run_encoder ran
    obtain ⟨-, rfl, -⟩ := encodeNext_eq_outputs worked
    have isEmitted := handed.subset (List.mem_append_right _ (List.mem_singleton_self _))
    exact ⟨_, _, _, split, few, (mem_emitted isEmitted).1⟩
  · intro entry member
    obtain ⟨taken, last, outs, isPrefix, ranOther, made⟩ := others entry.1
    obtain ⟨-, rfl, -⟩ := run_encoder ranOther
    obtain ⟨block, inTaken, isEmitted⟩ :=
      List.mem_flatMap.mp (made.subset (mem_lane.mpr member))
    exact ⟨block, (List.mem_filter.mp (isPrefix.subset inTaken)).1, (mem_emitted isEmitted).1⟩

/-- What an encoder has written, in terms of positions. -/
theorem Encodes.written_keeps_close (framed : rq.Framed)
    (encodes : Encodes positive encoder dispatcher s)
    (timed : Timed (encoderProgram rq positive) (fun _ => encoder) s) :
    (∀ packet ∈ s.written, ∃ block ∈ s.sent, packet.origin = block.origin) ∧
      s.written.Pairwise fun earlier later =>
        earlier.origin < later.origin + (queueCapacity + 1) * stride workers := by
  constructor
  · intro packet member
    obtain ⟨block, inSent, isEmitted⟩ := encodes.mem_written framed member
    exact ⟨block, inSent, (mem_emitted isEmitted).1⟩
  · obtain ⟨chunks, -, isSent⟩ := encodes.sent_eq
    refine List.Pairwise.sublist encodes.wired.written_prefix.sublist
      (List.pairwise_map.mpr (pairwise_of_splits ?_))
    intro before later after split earlier isBefore
    obtain ⟨sent, ⟨rest, isPrefix⟩, moment⟩ := timed before later.1 later.2 after split
    obtain ⟨sentChunks, -, rfl⟩ := numbered_prefix (isSent.symm.trans isPrefix.symm)
    obtain ⟨⟨_, block, _, waiting, few, origin⟩, dispatched⟩ := origins_of_moment moment
    obtain ⟨other, inSent, same⟩ := dispatched earlier isBefore
    rw [same, origin]
    exact origin_lt_of_waiting waiting few other inSent

end Encoder

/-! ## An encoder with a slow worker -/

/-- Twenty-two blocks. -/
def slowSession : Session := wholeSession 0 (List.replicate (22 * 16) 0)

theorem quiet_slowSession : Quiet onError slowSession.input :=
  quiet_wholeSession 0 (by decide)

def zeroBlock (position : Nat) : Sourced Block :=
  ⟨position, ⟨UInt8.ofNat position, List.replicate 16 0⟩⟩

/-- The blocks behind the first one that go to the first of two workers. -/
def evenBlocks : List (Sourced Block) := (List.range' 2 10 2).map zeroBlock

/-- The blocks that go to the second one. -/
def oddBlocks : List (Sourced Block) := (List.range' 1 11 2).map zeroBlock

/-- The encoder of two workers. -/
abbrev slowEncoder : BlockEncoder systematicCodec := (systematicSetup Nat.two_pos).encoder

theorem encodeNext_zeroBlock (position : Nat) :
    slowEncoder.encodeNext (zeroBlock position) =
      .outputs slowEncoder (emitted slowEncoder (zeroBlock position)) := by
  obtain ⟨packets, encodes⟩ := (systematicSetup Nat.two_pos).accepted.encode_ok
    Systematic.counted (show (0 : UInt32).toNat ≤ 2 ^ 23 by decide) (zeroBlock position).item
    (show (List.replicate 16 (0 : UInt8)).length = 16 by decide)
  exact encodeNext_of_ok encodes

/-- While the first of two workers does not get on with its first block, its queue fills up and the
    other one goes through its own blocks. -/
theorem exists_slow_encoder :
    ∃ e, Reachable (encoderProgram systematicCodec Nat.two_pos)
        (.start ((systematicSetup Nat.two_pos).dispatcher 0 slowSession) fun _ => slowEncoder) e ∧
      Lagging e 0 (emitted slowEncoder (zeroBlock 0)) evenBlocks ∧
      (encoderProgram systematicCodec Nat.two_pos).Dispatches e.source [] .ok ∧
      e.workers = (fun _ => slowEncoder) ∧
      e.written = oddBlocks.flatMap (emitted slowEncoder) := by
  have dispatches : (encoderProgram systematicCodec Nat.two_pos).Dispatches
      ((systematicSetup Nat.two_pos).dispatcher 0 slowSession)
      (zeroBlock 0 :: ((List.range' 1 21).map zeroBlock ++ [])) .ok := by
    refine (dispatches_iff systematicCodec Nat.two_pos quiet_slowSession .endOfFile
      (show 0 < 16 by decide) (List.append_nil _).symm _ .ok).mpr ⟨?_, rfl⟩
    decide +kernel
  obtain ⟨_, fetched, dispatches⟩ := dispatches.fetches
  have idle : Idle (State.start ((systematicSetup Nat.two_pos).dispatcher 0 slowSession)
      fun _ => slowEncoder : EncoderState systematicCodec 2) := .start _ _
  obtain ⟨mid, reachesMid, sending, rfl, updated, written⟩ :=
    idle.exists_sending fetched (encodeNext_zeroBlock 0)
  have workers : mid.workers = fun _ => slowEncoder :=
    updated.trans (Function.update_eq_self _ _)
  have first : (encoderProgram systematicCodec Nat.two_pos).route (zeroBlock 0) = 0 := rfl
  rw [first] at sending
  have worked : ∀ block ∈ (List.range' 1 21).map zeroBlock,
      (encoderProgram systematicCodec Nat.two_pos).route block ≠ 0 →
      (encoderProgram systematicCodec Nat.two_pos).work
        (mid.workers ((encoderProgram systematicCodec Nat.two_pos).route block)) block =
          .outputs (mid.workers ((encoderProgram systematicCodec Nat.two_pos).route block))
            (emitted slowEncoder block) := by
    intro block member _
    obtain ⟨position, -, rfl⟩ := List.mem_map.mp member
    rw [workers]
    exact encodeNext_zeroBlock position
  obtain ⟨e, reaches, lagging, remains, sameWorkers, allWritten⟩ :=
    sending.lagging.exists_overtaken (emitted slowEncoder) dispatches worked (by decide)
  have odd : (((List.range' 1 21).map zeroBlock).filter fun block =>
      (encoderProgram systematicCodec Nat.two_pos).route block ≠ 0) = oddBlocks := by decide
  have even : [] ++ (((List.range' 1 21).map zeroBlock).filter fun block =>
      (encoderProgram systematicCodec Nat.two_pos).route block = 0) = evenBlocks := by decide
  rw [even] at lagging
  rw [odd, written] at allWritten
  exact ⟨e, reachesMid.trans reaches, lagging, remains, sameWorkers.trans workers, allWritten⟩

/-- The slow worker catches up, and the encoder drains. -/
theorem exists_slow_drained :
    ∃ e, Reachable (encoderProgram systematicCodec Nat.two_pos)
        (.start ((systematicSetup Nat.two_pos).dispatcher 0 slowSession) fun _ => slowEncoder) e ∧
      Drained e ∧
      e.written = (oddBlocks ++ zeroBlock 0 :: evenBlocks).flatMap (emitted slowEncoder) := by
  obtain ⟨slow, reachesSlow, lagging, dispatches, workers, overtaken⟩ := exists_slow_encoder
  obtain ⟨mid, reachesMid, lagging, source, sameWorkers, handedOn⟩ :=
    lagging.exists_handedOn (encoderProgram systematicCodec Nat.two_pos)
  have works : ∀ block ∈ evenBlocks, (encoderProgram systematicCodec Nat.two_pos).work
      (mid.workers 0) block = .outputs (mid.workers 0) (emitted slowEncoder block) := by
    intro block member
    obtain ⟨position, -, rfl⟩ := List.mem_map.mp member
    rw [sameWorkers, workers]
    exact encodeNext_zeroBlock position
  obtain ⟨last, reachesLast, idle, sameSource, caughtUp⟩ := lagging.exists_idle _ works
  rw [← source, ← sameSource] at dispatches
  cases dispatches with
  | stop stopped =>
    obtain ⟨e, reaches, drained, written⟩ := idle.finish stopped
    refine ⟨e, ((reachesSlow.trans reachesMid).trans reachesLast).trans reaches, drained, ?_⟩
    rw [written, caughtUp, handedOn, overtaken, List.append_assoc, List.flatMap_append,
      List.flatMap_cons]

/-! ## The link -/

namespace Link

variable {setup : Setup rq} {sessions : List Session} {s s' : Link rq setup.workers}

/-- The encoder has come out of a run of its threads. -/
def Ran (setup : Setup rq) (encoder : EncoderState rq setup.workers) : Prop :=
  ∃ position session, Pipeline.Reachable (encoderProgram rq setup.workers_pos)
    (.start (setup.dispatcher position session) fun _ => setup.encoder) encoder

theorem ran_of_reachable (reachable : Reachable setup (start setup sessions) s) :
    (∀ encoder ∈ s.past, Ran setup encoder) ∧
      ∀ encoder, s.current = some encoder → Ran setup encoder := by
  induction reachable with
  | refl => exact ⟨nofun, nofun⟩
  | tail _ step inductionHypothesis =>
    obtain ⟨past, current⟩ := inductionHypothesis
    cases step with
    | accept idle first =>
      refine ⟨past, fun encoder running => ?_⟩
      cases running
      exact ⟨_, _, .refl⟩
    | encode running encoderStep =>
      refine ⟨past, fun encoder isNext => ?_⟩
      cases isNext
      obtain ⟨position, session, reaches⟩ := current _ running
      exact ⟨position, session, reaches.tail encoderStep⟩
    | finish running ended =>
      refine ⟨fun encoder member => ?_, nofun⟩
      cases List.mem_append.mp member with
      | inl earlier => exact past encoder earlier
      | inr last =>
        cases List.mem_singleton.mp last
        exact current _ running
    | drop | deliver | close | decode => exact ⟨past, current⟩

/-- Later sessions go on with later positions. -/
theorem written_close_of_chained (framed : rq.Framed) {position : Nat}
    {encoders : List (EncoderState rq setup.workers)}
    (chained : Chained setup position sessions encoders)
    (ran : ∀ encoder ∈ encoders, Ran setup encoder) :
    (∀ packet ∈ encoders.flatMap fun encoder => encoder.written, position ≤ packet.origin) ∧
      (encoders.flatMap fun encoder => encoder.written).Pairwise fun earlier later =>
        earlier.origin < later.origin + (queueCapacity + 1) * stride setup.workers := by
  induction chained using Chained.induction with
  | nil => exact ⟨nofun, .nil⟩
  | @cons position session sessions encoder encoders encodes rest inductionHypothesis =>
    obtain ⟨fromHere, close⟩ :=
      inductionHypothesis fun other member => ran other (List.mem_cons_of_mem _ member)
    obtain ⟨_, _, reaches⟩ := ran encoder List.mem_cons_self
    obtain ⟨dispatched, first⟩ := encodes.written_keeps_close framed (timed_of_reachable reaches)
    have inSession : ∀ packet ∈ encoder.written,
        position ≤ packet.origin ∧ packet.origin < position + encoder.sent.length := by
      intro packet member
      obtain ⟨block, inSent, same⟩ := dispatched packet member
      obtain ⟨chunks, -, isSent⟩ := encodes.sent_eq
      have isOrigin := List.mem_map_of_mem (f := Sourced.origin) inSent
      rw [isSent, map_origin_numbered, List.mem_range'_1] at isOrigin
      rw [same, isSent, length_numbered]
      exact isOrigin
    rw [List.flatMap_cons]
    constructor
    · intro packet member
      cases List.mem_append.mp member with
      | inl early => exact (inSession packet early).1
      | inr late => exact (Nat.le_add_right _ _).trans (fromHere packet late)
    · refine List.pairwise_append.mpr ⟨first, close, ?_⟩
      intro earlier isEarlier later isLater
      have before := (inSession earlier isEarlier).2
      have behind := fromHere later isLater
      omega

theorem wire_close (framed : rq.Framed) (reachable : Reachable setup (start setup sessions) s) :
    s.wire.Pairwise fun earlier later =>
      earlier.origin < later.origin + (queueCapacity + 1) * stride setup.workers := by
  have connected := (Connected.start setup sessions).reachable framed reachable
  obtain ⟨served, -, chained⟩ := connected.encoders
  obtain ⟨past, current⟩ := ran_of_reachable reachable
  have ran : ∀ encoder ∈ s.encoders, Ran setup encoder := by
    intro encoder member
    cases List.mem_append.mp member with
    | inl earlier => exact past encoder earlier
    | inr running => exact current encoder (by simpa using running)
  exact (written_close_of_chained framed chained ran).2

/-- At any time and whatever the schedule is: a packet that comes before another one, on the wire
    and out of the channel, is of a block less than eleven rounds of the workers after it. -/
theorem packets_keep_close (framed : rq.Framed) (setup : Setup rq) (sessions : List Session)
    {s : Link rq setup.workers} (reachable : Reachable setup (start setup sessions) s) :
    (s.wire.Pairwise fun earlier later =>
        earlier.origin < later.origin + 11 * stride setup.workers) ∧
      s.delivered.Pairwise fun earlier later =>
        earlier.origin < later.origin + 11 * stride setup.workers := by
  have connected := (Connected.start setup sessions).reachable framed reachable
  have close := wire_close framed reachable
  exact ⟨close, close.sublist (connected.delivered.trans (List.take_sublist _ _))⟩

/-- When the slow worker gets on, its first block comes behind all blocks of the other one, of which
    the last is as far ahead as it can be. -/
theorem packets_keep_close_systematic :
    ∃ s, Reachable (systematicSetup Nat.two_pos) (start _ [slowSession]) s ∧
      (∃ e, s.current = some e ∧ (e.queues ⟨0, Nat.two_pos⟩).length = 10) ∧
      s.delivered.map Sourced.origin =
        [1, 1, 3, 3, 5, 5, 7, 7, 9, 9, 11, 11, 13, 13, 15, 15, 17, 17, 19, 19, 21, 21, 0, 0] ∧
      s.delivered.Pairwise fun earlier later => earlier.origin < later.origin + 22 := by
  obtain ⟨slow, reachesSlow, lagging, -, -, overtaken⟩ := exists_slow_encoder
  obtain ⟨e, reaches, lagging, -, -, written⟩ :=
    lagging.exists_handedOn (encoderProgram systematicCodec Nat.two_pos)
  obtain ⟨s, reachable, running, wire, kept⟩ :=
    exists_carried_encoder (systematicSetup Nat.two_pos) Systematic.framed
      (reachesSlow.trans reaches) fun _ => true
  have delivered : s.delivered = oddBlocks.flatMap (emitted slowEncoder) ++
      emitted slowEncoder (zeroBlock 0) := by
    rw [kept, List.filter_true, wire, written, overtaken]
  refine ⟨s, reachable, ⟨e, running, ?_⟩, ?_,
    (packets_keep_close Systematic.framed _ _ reachable).2⟩
  · exact (congrArg List.length lagging.queue).trans (by decide)
  · rw [delivered]
    decide +kernel

end Link

end GarudaCodec.Core
