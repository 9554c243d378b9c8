import GarudaCodec.Core.Dispatch
import GarudaCodec.Core.Framing
import GarudaCodec.Core.Threads
import GarudaCodec.Foundation.Groups

/-! # What waiting for a codec means

The threads of an encoder and of a decoder return whatever reads and writes fail, so `wait` returns
as well (`pipelines_never_hang`).  Its `Ok(())` does not say that nothing has failed: the threads
only print their errors (`wait_hides_write_failure`).  What it does say, and what has been written
then, is `wait_accounts`.
-/

namespace GarudaCodec.Core

open GarudaCodec.Foundation
open GarudaCodec.Foundation.Lanes
open GarudaCodec.Foundation.Chunks
open GarudaCodec.Foundation.Groups
open GarudaCodec.Foundation.Readers
open GarudaCodec.Foundation.Pipeline
open GarudaCodec.Core.Io

variable {rq : Raptorq} {workers : Nat} {positive : 0 < workers} {blockSize : Nat}
variable {maxPacketSize : UInt16} {repair : UInt32}

/-! ## The dispatchers come to an end -/

theorem exitOf_ne_panicked (kind : ErrorKind) : exitOf kind ≠ .panicked := by
  cases kind <;> simp [exitOf]

theorem BlockDispatcher.fueled (sizePositive : 0 < blockSize) :
    Fueled (encoderProgram rq positive) (fun dispatcher => dispatcher.blockSize = blockSize)
      (fun dispatcher => weight dispatcher.input) where
  fetches := fun {dispatcher} _ => by
    show ∃ fetched, dispatcher.fetch = some fetched
    rw [BlockDispatcher.fetch]
    split
    · exact ⟨_, rfl⟩
    · exact ⟨_, rfl⟩
  item := fun {dispatcher block next} size fetched => by
    obtain ⟨buffer, input, reads, -, rfl⟩ := BlockDispatcher.fetch_eq_item fetched
    exact ⟨size, weight_readExactWith (size ▸ sizePositive) reads⟩

theorem BlockDispatcher.fetchCalm : FetchCalm (encoderProgram rq positive) := by
  intro dispatcher exit next fetched
  obtain ⟨kind, input, -, rfl, -⟩ := BlockDispatcher.fetch_eq_stop fetched
  exact exitOf_ne_panicked kind

theorem PacketDispatcher.fueled {packetSize : Nat} (sizePositive : 0 < packetSize) :
    Fueled (decoderProgram rq positive)
      (fun dispatcher => dispatcher.packetSize = packetSize ∧ dispatcher.isOpen = false)
      (fun dispatcher => weight dispatcher.input) where
  fetches := fun {dispatcher} closed => by
    show ∃ fetched, dispatcher.fetch rq = some fetched
    rw [PacketDispatcher.fetch]
    split
    · exact ⟨_, rfl⟩
    · rw [if_neg (by simp [closed.2])]
      exact ⟨_, rfl⟩
  item := fun {dispatcher packet next} closed fetched => by
    have fetched : dispatcher.fetch rq = some (.item packet next) := fetched
    rw [PacketDispatcher.fetch] at fetched
    split at fetched
    next bytes input reads =>
      cases fetched
      exact ⟨closed, weight_readExactWith (closed.1 ▸ sizePositive) reads⟩
    next =>
      split at fetched
      · cases fetched
      · cases fetched

theorem PacketDispatcher.fetchCalm : FetchCalm (decoderProgram rq positive) := by
  intro dispatcher exit next fetched
  have fetched : dispatcher.fetch rq = some (.stop exit next) := fetched
  rw [PacketDispatcher.fetch] at fetched
  split at fetched
  next => cases fetched
  next kind input reads =>
    split at fetched
    · cases fetched
    · cases fetched
      exact exitOf_ne_panicked kind

/-! ## The workers do not fail -/

/-- Every worker has its own encoder at hand, and in its queue are blocks of the right size. -/
theorem Encodes.queued {encoder : BlockEncoder rq} {dispatcher : BlockDispatcher}
    {s : EncoderState rq workers} (encodes : Encodes positive encoder dispatcher s)
    {key : Fin workers} {block : Sourced Block} (member : block ∈ s.queues key) :
    s.workers key = encoder ∧ block.item.data.length = dispatcher.blockSize := by
  obtain ⟨rest, ran, -⟩ := encodes.wired.worked key
  refine ⟨(run_encoder ran).1, ?_⟩
  obtain ⟨chunks, sizes, isSent⟩ := encodes.sent_eq
  have inFilter : block ∈ s.sent.filter fun item =>
      (encoderProgram rq positive).route item = key := by
    rw [encodes.wired.queued key]
    exact List.mem_append_right _ member
  have inSent := (List.mem_filter.mp inFilter).1
  rw [isSent, numbered, List.mem_mapIdx] at inSent
  obtain ⟨idx, inside, rfl⟩ := inSent
  exact sizes _ (List.getElem_mem inside)

/-- Only the size of a block makes `encode` return an error. -/
theorem BlockEncoder.encode_ne_err {encoder : BlockEncoder rq} {block : Block}
    (size : block.data.length = encoder.blockSize) (error : BlockEncoderError) :
    encoder.encode block ≠ .err error := by
  rw [BlockEncoder.encode, if_neg (not_not.mpr size)]
  cases rq.withEncodingPlan block.id encoder.config block.data encoder.encodingPlan with
  | none => simp [Outcome.orPanic]
  | some blockEncoder =>
    rw [Outcome.orPanic_some, Outcome.bind_ok]
    cases rq.repairPackets blockEncoder 0 encoder.repairPacketsPerBlock with
    | none => simp [Outcome.orPanic]
    | some repairPackets => simp

theorem encoder_workSound {encoder : BlockEncoder rq} {dispatcher : BlockDispatcher}
    (size : encoder.blockSize = dispatcher.blockSize) :
    WorkSound (encoderProgram rq positive) (State.start dispatcher fun _ => encoder) := by
  intro s reachable key block member failed
  obtain ⟨same, blockSize⟩ :=
    ((Encodes.start positive encoder dispatcher).reachable reachable).queued member
  rw [same] at failed
  have failed : encoder.encodeNext block = .failed := failed
  rw [BlockEncoder.encodeNext] at failed
  split at failed
  next => cases failed
  next error fails => exact BlockEncoder.encode_ne_err (blockSize.trans size.symm) error fails
  next => cases failed

theorem decoder_workSound {start : DecoderState rq workers} :
    WorkSound (decoderProgram rq positive) start := by
  intro s _ key packet _ failed
  cases failed

/-- While the symbol ids of a block fit, no block encoder panics. -/
theorem encoder_never_panics (counted : rq.Counted) {encoder : BlockEncoder rq}
    (created : BlockEncoder.new rq blockSize maxPacketSize repair = .ok encoder)
    (few : repair.toNat ≤ 2 ^ 23) {dispatcher : BlockDispatcher}
    (size : dispatcher.blockSize = blockSize) {s : EncoderState rq workers}
    (reachable : Reachable (encoderProgram rq positive) (State.start dispatcher fun _ => encoder) s)
    (key : Fin workers) : s.workerPhases key ≠ .ended .panicked := by
  obtain ⟨accepted, rfl⟩ := BlockEncoder.new_eq_ok.mp created
  refine never_panicked nofun ?_ reachable key
  intro s reaches key block member panicked
  obtain ⟨same, length⟩ :=
    ((Encodes.start positive encoder dispatcher).reachable reaches).queued member
  obtain ⟨packets, encodes⟩ := accepted.encode_ok counted few block.item (length.trans size)
  rw [same] at panicked
  have panicked : encoder.encodeNext block = .panicked := panicked
  rw [BlockEncoder.encodeNext, encodes] at panicked
  cases panicked

/-- No block decoder panics. -/
theorem decoder_never_panics {dispatcher : PacketDispatcher} {decoder : BlockDecoder rq}
    {s : DecoderState rq workers}
    (reachable : Reachable (decoderProgram rq positive) (State.start dispatcher fun _ => decoder) s)
    (key : Fin workers) : s.workerPhases key ≠ .ended .panicked := by
  refine never_panicked nofun ?_ reachable key
  intro s _ key packet _ panicked
  cases panicked

/-! ## An encoder for one block -/

/-- An input of one complete block, which is a single symbol. -/
def oneBlock : Reader := [.data (List.replicate 64 7)]

/-- One worker for blocks of 64 bytes and no repair packets. -/
def oneBlockEncoder : BlockEncoder systematicCodec :=
  { blockSize := 64, repairPacketsPerBlock := 0, config := 64, encodingPlan := 1 }

def oneBlockDispatcher : BlockDispatcher :=
  { blockSize := 64, currentBlockId := 0, input := oneBlock, position := 0 }

theorem created_oneBlock : BlockEncoder.new systematicCodec 64 64 0 = .ok oneBlockEncoder := rfl

theorem started_oneBlock :
    (Encoder.new 1 64 64 0).startEncoding systematicCodec (.ok 0) oneBlock =
      (.ok (State.start oneBlockDispatcher fun _ => oneBlockEncoder),
        { Encoder.new 1 64 64 0 with handles := .all (List.finRange 1) }) := by
  have alike : (fun _ : Fin 1 => oneBlockEncoder) = Fin.cons oneBlockEncoder Fin.elim0 := by
    funext key
    cases key using Fin.cases with
    | zero => rfl
    | succ key => exact key.elim0
  rw [alike]
  rfl

theorem fetched_oneBlock :
    ∃ rest, (encoderProgram systematicCodec Nat.one_pos).fetch oneBlockDispatcher =
        some (.item ⟨0, ⟨0, List.replicate 64 7⟩⟩ ⟨64, 1, rest, 1⟩) ∧
      Quiet onError rest ∧ contents rest = [] := by
  have quiet : Quiet onError oneBlock := by simp [Quiet, oneBlock]
  have enough : 64 ≤ (contents oneBlock).length := by decide
  obtain ⟨rest, reads, restQuiet, restContents⟩ := quiet.reads enough
  have sameReads : readExact oneBlockDispatcher.input oneBlockDispatcher.blockSize = _ := reads
  exact ⟨rest, BlockDispatcher.fetch_of_ok sameReads, restQuiet, restContents⟩

theorem encoded_oneBlock :
    (encoderProgram systematicCodec Nat.one_pos).work oneBlockEncoder
        ⟨0, ⟨0, List.replicate 64 7⟩⟩ =
      .outputs oneBlockEncoder [⟨0, ⟨0, 0, List.replicate 64 7⟩⟩] := by
  have encodes : oneBlockEncoder.encode ⟨0, List.replicate 64 7⟩ =
      .ok [⟨0, 0, List.replicate 64 7⟩] := by decide
  simp only [encoderProgram, BlockEncoder.encodeNext, encodes, List.map_cons, List.map_nil]

/-! ## What a start promises -/

theorem inferPacketSize_pos (framed : rq.Framed) {packetSize : Nat} {decoder : BlockDecoder rq}
    (created : BlockDecoder.new rq blockSize maxPacketSize = .ok decoder)
    (inferred : inferPacketSize rq blockSize maxPacketSize = .ok packetSize) : 0 < packetSize := by
  obtain ⟨config, configured, -⟩ := BlockDecoder.new_eq_ok.mp created
  rw [inferPacketSize_eq framed configured inferred]
  omega

/-- No schedule and no error of a read or a write keeps `wait` from returning, and if neither
    fails, everything dispatched has been consumed then. -/
theorem pipelines_never_hang (rejects : rq.RejectsEmpty) (framed : rq.Framed)
    (positive : 0 < workers) (blockSize : Nat) (maxPacketSize : UInt16) :
    (∀ repair random input start encoder,
      (Encoder.new workers blockSize maxPacketSize repair).startEncoding rq random input =
        (.ok start, encoder) →
      NeverHangs (encoderProgram rq positive) start.workers start
          (fun s => (encoder.wait s.exit?).1) ∧
        (rq.Counted → repair.toNat ≤ 2 ^ 23 → ∀ s,
          Reachable (encoderProgram rq positive) start s →
            ∀ key, s.workerPhases key ≠ .ended .panicked)) ∧
    ∀ input start decoder,
      (Decoder.new workers blockSize maxPacketSize).startDecoding rq input =
        (.ok start, decoder) →
      NeverHangs (decoderProgram rq positive) start.workers start
          (fun s => (decoder.wait s.exit?).1) ∧
        ∀ s, Reachable (decoderProgram rq positive) start s →
          ∀ key, s.workerPhases key ≠ .ended .panicked := by
  constructor
  · intro repair random input start encoder starts
    obtain ⟨⟨currentBlockId, blockEncoder, -, created, rfl⟩, handles⟩ :=
      Encoder.startEncoding_eq_ok positive starts
    have accepted := (BlockEncoder.new_eq_ok.mp created).1
    have sound : WorkSound (encoderProgram rq positive)
        (State.start ⟨blockSize, currentBlockId, input, 0⟩ fun _ => blockEncoder) :=
      encoder_workSound accepted.size
    constructor
    · obtain ⟨noSource, noSink, waits⟩ := encoder.wait_fst
      simp only [waits, handles]
      exact neverHangs (BlockDispatcher.fueled (accepted.blockSize_pos rejects)) rfl sound
        BlockDispatcher.fetchCalm List.mem_finRange noSource noSink
    · intro counted few s reachable key
      exact encoder_never_panics counted created few rfl reachable key
  · intro input start decoder starts
    obtain ⟨⟨packetSize, blockDecoder, inferred, created, rfl⟩, handles⟩ :=
      Decoder.startDecoding_eq_ok positive starts
    have sound : WorkSound (decoderProgram rq positive)
        (State.start ⟨packetSize, input, false⟩ fun _ => blockDecoder) := decoder_workSound
    constructor
    · obtain ⟨noSource, noSink, waits⟩ := decoder.wait_fst
      simp only [waits, handles]
      exact neverHangs (PacketDispatcher.fueled (inferPacketSize_pos framed created inferred))
        ⟨rfl, rfl⟩ sound PacketDispatcher.fetchCalm List.mem_finRange noSource noSink
    · intro s reachable key
      exact decoder_never_panics reachable key

theorem pipelines_never_hang_systematic :
    ∃ start encoder, (Encoder.new 1 64 64 0).startEncoding systematicCodec (.ok 0) oneBlock =
        (.ok start, encoder) ∧
      AlwaysEnds (encoderProgram systematicCodec Nat.one_pos) start ∧
      ∀ s, Reachable (encoderProgram systematicCodec Nat.one_pos) start s →
        (∀ s', ¬Step (encoderProgram systematicCodec Nat.one_pos) s s') →
        (encoder.wait s.exit?).1 = some (.ok ()) := by
  obtain ⟨hangs, calm⟩ := (pipelines_never_hang Systematic.rejectsEmpty Systematic.framed
    Nat.one_pos 64 64).1 _ _ _ _ _ started_oneBlock
  refine ⟨_, _, started_oneBlock, hangs.alwaysEnds, fun s reachable stuck => ?_⟩
  rcases hangs.waits s reachable stuck with fine | ⟨-, key, panicked⟩
  · exact fine
  · exact absurd panicked (calm Systematic.counted (by decide) s reachable key)

/-! ## What a successful wait says -/

/-- What was sent to the workers of an encoder and is not in the queues any more is all in the
    output. -/
theorem Encodes.written_perm (framed : rq.Framed) {encoder : BlockEncoder rq}
    {dispatcher : BlockDispatcher} {s : EncoderState rq workers}
    (encodes : Encodes positive encoder dispatcher s)
    (consumed : Consumed (encoderProgram rq positive) (fun _ => encoder) s) :
    s.written.Perm (s.sent.flatMap (emitted encoder)) := by
  classical
  have whole : ∀ block, ∀ packet ∈ emitted encoder block,
      queueOf positive (rq.sourceBlockNumber packet.item) = queueOf positive block.item.id :=
    fun block packet member => queueOf_emitted framed member
  apply perm_of_lanes fun packet => queueOf positive (rq.sourceBlockNumber packet.item)
  intro key
  rw [(encodes.consumed framed consumed).2 key, filter_flatMap_of_keys whole]

/-- After a successful `wait` all threads have returned and none has panicked; none has returned an
    error exactly if no read error has ended the dispatcher with an error and no write has failed.
    As long as no write has failed, the encoder has written all packets of every complete block it
    has read, and the decoder has written every block its workers have decoded. -/
theorem wait_accounts (rejects : rq.RejectsEmpty) (framed : rq.Framed) (positive : 0 < workers)
    (blockSize : Nat) (maxPacketSize : UInt16) :
    (∀ repair random input start encoder,
      (Encoder.new workers blockSize maxPacketSize repair).startEncoding rq random input =
        (.ok start, encoder) →
      ∀ s, Reachable (encoderProgram rq positive) start s →
        (encoder.wait s.exit?).1 = some (.ok ()) →
        Accounted (encoderProgram rq positive) start s ∧
        (ReachableWithout (encoderProgram rq positive) WriteFailure start s →
          ∀ before tail exit, input = before ++ tail → Quiet onError before → Ending tail exit →
            s.sourcePhase = .ended exit ∧
            ∃ currentBlockId blockEncoder, random = .ok currentBlockId ∧
              BlockEncoder.new rq blockSize maxPacketSize repair = .ok blockEncoder ∧
              s.sent = numbered 0 currentBlockId (chunksExact blockSize (contents before)) ∧
              (∀ block ∈ s.sent, ∃ packets, blockEncoder.encode block.item = .ok packets) ∧
              s.written.Perm (s.sent.flatMap (emitted blockEncoder)))) ∧
    ∀ input start decoder,
      (Decoder.new workers blockSize maxPacketSize).startDecoding rq input =
        (.ok start, decoder) →
      ∀ s, Reachable (decoderProgram rq positive) start s →
        (decoder.wait s.exit?).1 = some (.ok ()) →
        Accounted (decoderProgram rq positive) start s ∧
        (ReachableWithout (decoderProgram rq positive) WriteFailure start s →
          ∃ blockDecoder, BlockDecoder.new rq blockSize maxPacketSize = .ok blockDecoder ∧
            s.written = s.merged.map Prod.snd ∧
            ∀ key, lane s.merged key = (blockDecoder.decodeStream (s.sent.filter fun packet =>
              queueOf positive (rq.sourceBlockNumber packet) = key)).2) := by
  constructor
  · intro repair random input start encoder starts s reachable waited
    obtain ⟨⟨currentBlockId, blockEncoder, isRandom, created, rfl⟩, handles⟩ :=
      Encoder.startEncoding_eq_ok positive starts
    have accepted := (BlockEncoder.new_eq_ok.mp created).1
    have sound : WorkSound (encoderProgram rq positive)
        (State.start ⟨blockSize, currentBlockId, input, 0⟩ fun _ => blockEncoder) :=
      encoder_workSound accepted.size
    obtain ⟨ended, calm⟩ := (Encoder.wait_eq_ok_iff handles).mp waited
    have accounts := accounted sound reachable ended calm
    refine ⟨accounts, fun run before tail exit split quiet ending => ?_⟩
    obtain ⟨consumed, sourceExit, sourceEnded, dispatches⟩ := accounts.consumed sound run
    obtain ⟨isSent, rfl⟩ := (dispatches_iff rq positive quiet ending
      (accepted.blockSize_pos rejects) split s.sent sourceExit).mp dispatches
    have encodes := (Encodes.start positive blockEncoder _).reachable reachable
    exact ⟨sourceEnded, currentBlockId, blockEncoder, isRandom, created, isSent,
      (encodes.consumed framed consumed).1, encodes.written_perm framed consumed⟩
  · intro input start decoder starts s reachable waited
    obtain ⟨⟨packetSize, blockDecoder, inferred, created, rfl⟩, handles⟩ :=
      Decoder.startDecoding_eq_ok positive starts
    have sound : WorkSound (decoderProgram rq positive)
        (State.start ⟨packetSize, input, false⟩ fun _ => blockDecoder) := decoder_workSound
    obtain ⟨ended, calm⟩ := (Decoder.wait_eq_ok_iff handles).mp waited
    have accounts := accounted sound reachable ended calm
    refine ⟨accounts, fun run => ⟨blockDecoder, created, ?_⟩⟩
    obtain ⟨consumed, -⟩ := accounts.consumed sound run
    exact ⟨consumed.written, lane_of_consumed consumed⟩

/-- The encoder of one block whose writes succeed. -/
theorem exists_drained_oneBlock :
    ∃ s, Reachable (encoderProgram systematicCodec Nat.one_pos)
        (State.start oneBlockDispatcher fun _ => oneBlockEncoder) s ∧ Drained s := by
  obtain ⟨rest, fetched, quiet, empty⟩ := fetched_oneBlock
  have start : Idle
      (State.start oneBlockDispatcher fun _ => oneBlockEncoder : EncoderState systematicCodec 1) :=
    .start _ _
  obtain ⟨mid, reachesMid, idle, source, -⟩ := start.carry fetched encoded_oneBlock
  have few : (contents rest).length < 64 := by simp [empty]
  have reads : readExact rest 64 = (.error .unexpectedEof, []) := quiet.reads_eof few
  have stopped : (encoderProgram systematicCodec Nat.one_pos).fetch mid.source =
      some (.stop .ok ⟨64, 1, [], 1⟩) := by
    rw [source]
    exact @BlockDispatcher.fetch_of_error ⟨64, 1, rest, 1⟩ _ _ reads
  obtain ⟨s, reaches, drained, -⟩ := idle.finish stopped
  exact ⟨s, reachesMid.trans reaches, drained⟩

/-- All packets of the one block are written if nothing fails. -/
theorem wait_accounts_systematic :
    ∃ start encoder s, (Encoder.new 1 64 64 0).startEncoding systematicCodec (.ok 0) oneBlock =
        (.ok start, encoder) ∧
      Reachable (encoderProgram systematicCodec Nat.one_pos) start s ∧
      (encoder.wait s.exit?).1 = some (.ok ()) ∧
      s.sourcePhase = .ended .ok ∧ s.written = [⟨0, ⟨0, 0, List.replicate 64 7⟩⟩] := by
  obtain ⟨s, reachable, drained⟩ := exists_drained_oneBlock
  have handles := (Encoder.startEncoding_eq_ok Nat.one_pos started_oneBlock).2
  have waited := (Encoder.wait_eq_ok_iff handles).mpr ⟨drained.allEnded, drained.calm⟩
  obtain ⟨accounts, delivers⟩ := (wait_accounts Systematic.rejectsEmpty Systematic.framed
    Nat.one_pos 64 64).1 _ _ _ _ _ started_oneBlock s reachable waited
  have run := reachableWithout_write (accounts.drained_iff.mp drained)
  have quiet : Quiet onError oneBlock := by simp [Quiet, oneBlock]
  obtain ⟨sourceEnded, _, _, isRandom, created, isSent, -, written⟩ :=
    delivers run oneBlock [] .ok (List.append_nil _).symm quiet .endOfFile
  refine ⟨_, _, s, started_oneBlock, reachable, waited, sourceEnded, ?_⟩
  cases isRandom
  cases created.symm.trans created_oneBlock
  have blocks : numbered 0 0 (chunksExact 64 (contents oneBlock)) =
      [⟨0, ⟨0, List.replicate 64 7⟩⟩] := by decide
  have packets : emitted oneBlockEncoder ⟨0, ⟨0, List.replicate 64 7⟩⟩ =
      [⟨0, ⟨0, 0, List.replicate 64 7⟩⟩] := by decide
  rw [isSent, blocks, List.flatMap_singleton, packets] at written
  exact List.perm_singleton.mp written

/-- The only write fails, and `wait` still returns `Ok(())`. -/
theorem wait_hides_write_failure :
    ∃ start encoder s, (Encoder.new 1 64 64 0).startEncoding systematicCodec (.ok 0) oneBlock =
        (.ok start, encoder) ∧
      Reachable (encoderProgram systematicCodec Nat.one_pos) start s ∧
      (encoder.wait s.exit?).1 = some (.ok ()) ∧
      s.sinkPhase = .ended .failed ∧ s.written = [] ∧
      chunksExact 64 (contents oneBlock) = [List.replicate 64 7] ∧
      ∃ packet, (start.workers 0).encode ⟨0, List.replicate 64 7⟩ = .ok [packet] := by
  obtain ⟨rest, fetched, -, -⟩ := fetched_oneBlock
  have fueled : Fueled (encoderProgram systematicCodec Nat.one_pos) _ _ :=
    BlockDispatcher.fueled (show 0 < 64 by decide)
  have live : Live (fun dispatcher => dispatcher.blockSize = 64)
      (State.start oneBlockDispatcher fun _ => oneBlockEncoder : EncoderState systematicCodec 1) :=
    .start (by rfl) _
  obtain ⟨s, reachable, ended, failed, written⟩ := exists_write_failure fueled live
    (.start oneBlockDispatcher fun _ => oneBlockEncoder) fetched encoded_oneBlock
  refine ⟨_, _, s, started_oneBlock, reachable, ?_, failed, written, by decide, _, rfl⟩
  -- the thread has printed its error, and none has panicked
  refine (Encoder.wait_eq_ok_iff rfl).mpr ⟨ended, fun thread panicked => ?_⟩
  obtain ⟨key, workerPanicked⟩ := worker_of_panicked BlockDispatcher.fetchCalm reachable panicked
  exact encoder_never_panics Systematic.counted created_oneBlock (by decide) rfl reachable key
    workerPanicked

end GarudaCodec.Core
