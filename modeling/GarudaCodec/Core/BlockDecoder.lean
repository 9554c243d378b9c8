import GarudaCodec.Foundation.Runs
import GarudaCodec.Core.BlockEncoder
import GarudaCodec.Core.SystematicCodec

/-! # `block_decoder.rs`

The decoder of one worker keeps one `SourceBlockDecoder` and decides by the block number of each
packet whether to feed it, to replace it or to ignore the packet.  The main result is that this
amounts to cutting the packets into maximal runs of equal block numbers and decoding every run on
its own (`decodeStream_eq_decodeRuns`).
-/

namespace GarudaCodec.Core

open GarudaCodec.Foundation
open GarudaCodec.Foundation.Runs

variable {rq : Raptorq}

inductive BlockDecoderError where
  | invalidConfiguration (message : String)
deriving DecidableEq, Repr

/-- `impl From<ConfigurationError> for BlockDecoderError`. -/
def BlockDecoderError.ofConfigurationError (error : ConfigurationError) : BlockDecoderError :=
  .invalidConfiguration error.display

/-- One packet handed to a `SourceBlockDecoder`: which of the decoders made so far it was (0 is
    the one made in `new`), the number it was made with, and whether it returned a block. -/
structure Feed (rq : Raptorq) where
  instanceIdx : Nat
  number : UInt8
  packet : rq.EncodingPacket
  returned : Bool

/-- `BlockDecoder`.  The last three fields are history and are only ever written. -/
structure BlockDecoder (rq : Raptorq) where
  blockSize : Nat
  config : rq.ObjectTransmissionInformation
  currentBlockId : Option UInt8
  currentDecoder : rq.SourceBlockDecoder
  currentBlockIsDecoded : Bool
  instanceIdx : Nat
  number : UInt8
  feeds : List (Feed rq)

namespace BlockDecoder

def new (rq : Raptorq) (blockSize : Nat) (maxPacketSize : UInt16) :
    Outcome BlockDecoderError (BlockDecoder rq) := do
  let config ← (getConfiguration rq blockSize maxPacketSize).mapErr .ofConfigurationError
  .ok
    { blockSize
      config
      currentBlockId := none
      currentDecoder := rq.newDecoder 0 config blockSize
      currentBlockIsDecoded := false
      instanceIdx := 0
      number := 0
      feeds := [] }

def resetCurrentDecoder (decoder : BlockDecoder rq) (blockId : UInt8) : BlockDecoder rq :=
  { decoder with
    currentBlockId := some blockId
    currentBlockIsDecoded := false
    currentDecoder := rq.newDecoder blockId decoder.config decoder.blockSize
    instanceIdx := decoder.instanceIdx + 1
    number := blockId }

def tryDecode (decoder : BlockDecoder rq) (packet : rq.EncodingPacket) :
    BlockDecoder rq × Option (List UInt8) :=
  let (decoded, currentDecoder) := rq.decode decoder.currentDecoder [packet]
  let feed :=
    { instanceIdx := decoder.instanceIdx, number := decoder.number, packet,
      returned := decoded.isSome }
  let decoder := { decoder with currentDecoder, feeds := decoder.feeds ++ [feed] }
  match decoded with
  | some block => ({ decoder with currentBlockIsDecoded := true }, some block)
  | none => (decoder, none)

def decode (decoder : BlockDecoder rq) (packet : rq.EncodingPacket) :
    BlockDecoder rq × Option (List UInt8) :=
  let receivedBlockId := rq.sourceBlockNumber packet
  match decoder.currentBlockId with
  | some currentBlockId =>
    -- Case 1: the packet belongs to the current block.
    if receivedBlockId = currentBlockId then
      if decoder.currentBlockIsDecoded then (decoder, none)
      else decoder.tryDecode packet
    -- Case 2: it belongs to a block different from the current one.
    else (decoder.resetCurrentDecoder receivedBlockId).tryDecode packet
  -- Case 3: no block is currently being decoded.
  | none => (decoder.resetCurrentDecoder receivedBlockId).tryDecode packet

/-- `decode_stream` while the receiver of its blocks is there: the blocks sent, and the decoder as
    the loop leaves it. -/
def decodeStream (decoder : BlockDecoder rq) :
    List rq.EncodingPacket → BlockDecoder rq × List (List UInt8)
  | [] => (decoder, [])
  | packet :: input =>
    let (decoder, decoded) := decoder.decode packet
    let (decoder, blocks) := decoder.decodeStream input
    (decoder, decoded.toList ++ blocks)

end BlockDecoder

/-- The size of a packet, found by encoding a block of zeros. -/
def inferPacketSize (rq : Raptorq) (blockSize : Nat) (maxPacketSize : UInt16) :
    Outcome BlockDecoderError Nat :=
  match BlockEncoder.new rq blockSize maxPacketSize 1 with
  | .err error => .err (.invalidConfiguration error.display)
  | .panic => .panic
  | .ok encoder =>
    let dummyBlock : Block := { id := 1, data := List.replicate blockSize 0 }
    match encoder.encode dummyBlock with
    | .err error => .err (.invalidConfiguration error.display)
    | .panic => .panic
    | .ok packets =>
      match packets.head? with
      | none => .err (.invalidConfiguration "No packet was generated")
      | some packet => .ok (rq.serialize packet).length

/-! ## Decoding run by run -/

/-- The reference for one run: its packets go to a fresh decoder for its block number, and the
    first block that decoder returns is the result. -/
def decodeRun (config : rq.ObjectTransmissionInformation) (blockSize : Nat) :
    List rq.EncodingPacket → Option (List UInt8)
  | [] => none
  | packet :: run =>
    rq.firstDecoded (rq.newDecoder (rq.sourceBlockNumber packet) config blockSize) (packet :: run)

/-- The reference for a sequence of packets: every maximal run on its own, in order. -/
def decodeRuns (config : rq.ObjectTransmissionInformation) (blockSize : Nat)
    (packets : List rq.EncodingPacket) : List (List UInt8) :=
  (runs rq.sourceBlockNumber packets).flatMap fun run => (decodeRun config blockSize run).toList

namespace BlockDecoder

@[simp] theorem decodeStream_nil (decoder : BlockDecoder rq) :
    decoder.decodeStream [] = (decoder, []) := rfl

theorem decodeStream_append (decoder : BlockDecoder rq) (front back : List rq.EncodingPacket) :
    decoder.decodeStream (front ++ back) =
      (((decoder.decodeStream front).1.decodeStream back).1,
        (decoder.decodeStream front).2 ++
          ((decoder.decodeStream front).1.decodeStream back).2) := by
  induction front generalizing decoder with
  | nil => rfl
  | cons packet front inductionHypothesis =>
    simp [decodeStream, inductionHypothesis]

@[simp] theorem tryDecode_settings (decoder : BlockDecoder rq) (packet : rq.EncodingPacket) :
    (decoder.tryDecode packet).1.config = decoder.config ∧
      (decoder.tryDecode packet).1.blockSize = decoder.blockSize ∧
      (decoder.tryDecode packet).1.currentBlockId = decoder.currentBlockId := by
  rw [tryDecode]
  split
  split <;> exact ⟨rfl, rfl, rfl⟩

/-- Feeding on after a block has been returned does nothing while the number stays the same. -/
theorem decodeStream_ignored {decoder : BlockDecoder rq} {blockId : UInt8}
    (current : decoder.currentBlockId = some blockId)
    (decoded : decoder.currentBlockIsDecoded = true) {run : List rq.EncodingPacket}
    (sameId : ∀ packet ∈ run, rq.sourceBlockNumber packet = blockId) :
    decoder.decodeStream run = (decoder, []) := by
  induction run with
  | nil => rfl
  | cons packet run inductionHypothesis =>
    have ignored : decoder.decode packet = (decoder, none) := by
      simp [decode, current, sameId packet List.mem_cons_self, decoded]
    rw [decodeStream, ignored]
    simp [inductionHypothesis fun other member => sameId other (List.mem_cons_of_mem _ member)]

/-- While its block is not decoded, the current decoder is fed until it returns a block. -/
theorem decodeStream_fed {decoder : BlockDecoder rq} {blockId : UInt8}
    (current : decoder.currentBlockId = some blockId)
    (notDecoded : decoder.currentBlockIsDecoded = false) {run : List rq.EncodingPacket}
    (sameId : ∀ packet ∈ run, rq.sourceBlockNumber packet = blockId) :
    (decoder.decodeStream run).2 = (rq.firstDecoded decoder.currentDecoder run).toList ∧
      (decoder.decodeStream run).1.currentBlockId = some blockId ∧
      (decoder.decodeStream run).1.config = decoder.config ∧
      (decoder.decodeStream run).1.blockSize = decoder.blockSize := by
  induction run generalizing decoder with
  | nil => exact ⟨rfl, current, rfl, rfl⟩
  | cons packet run inductionHypothesis =>
    have restSameId := fun other member => sameId other (List.mem_cons_of_mem packet member)
    have fed : decoder.decode packet = decoder.tryDecode packet := by
      simp [decode, current, sameId packet List.mem_cons_self, notDecoded]
    rw [decodeStream, fed, tryDecode, Raptorq.firstDecoded]
    rcases rq.decode decoder.currentDecoder [packet] with ⟨decoded, next⟩
    cases decoded with
    | some block =>
      simp only
      rw [decodeStream_ignored ?_ rfl restSameId]
      · exact ⟨rfl, current, rfl, rfl⟩
      · exact current
    | none =>
      simp only [Option.toList_none, List.nil_append]
      exact inductionHypothesis current notDecoded restSameId

/-- A run with another number than the current block's starts afresh. -/
theorem decodeStream_run {decoder : BlockDecoder rq} {head : rq.EncodingPacket}
    {run : List rq.EncodingPacket}
    (fresh : decoder.currentBlockId ≠ some (rq.sourceBlockNumber head))
    (sameId : ∀ packet ∈ run, rq.sourceBlockNumber packet = rq.sourceBlockNumber head) :
    (decoder.decodeStream (head :: run)).2 =
        (decodeRun decoder.config decoder.blockSize (head :: run)).toList ∧
      (decoder.decodeStream (head :: run)).1.currentBlockId = some (rq.sourceBlockNumber head) ∧
      (decoder.decodeStream (head :: run)).1.config = decoder.config ∧
      (decoder.decodeStream (head :: run)).1.blockSize = decoder.blockSize := by
  have reset : decoder.decode head =
      (decoder.resetCurrentDecoder (rq.sourceBlockNumber head)).decode head := by
    have afterReset : (decoder.resetCurrentDecoder (rq.sourceBlockNumber head)).decode head =
        (decoder.resetCurrentDecoder (rq.sourceBlockNumber head)).tryDecode head := by
      simp [decode, resetCurrentDecoder]
    rw [afterReset, decode]
    cases current : decoder.currentBlockId with
    | none => rfl
    | some blockId =>
      have different : rq.sourceBlockNumber head ≠ blockId := by
        rintro rfl
        exact fresh current
      simp [different]
  rw [decodeStream, reset, ← decodeStream]
  exact decodeStream_fed rfl rfl (by simpa using sameId)

theorem decodeStream_eq_decodeRuns (decoder : BlockDecoder rq) (packets : List rq.EncodingPacket)
    (fresh : ∀ first ∈ packets.head?,
      decoder.currentBlockId ≠ some (rq.sourceBlockNumber first)) :
    (decoder.decodeStream packets).2 = decodeRuns decoder.config decoder.blockSize packets := by
  induction packets using runs_induction rq.sourceBlockNumber generalizing decoder with
  | nil => rfl
  | step head run rest sameId apart cut inductionHypothesis =>
    obtain ⟨sent, current, config, blockSize⟩ :=
      decodeStream_run (fresh head (by simp)) sameId
    rw [decodeStream_append, sent, inductionHypothesis, config, blockSize, decodeRuns, decodeRuns,
      cut, List.flatMap_cons]
    intro first isFirst
    rw [current]
    simpa [eq_comm] using apart first isFirst

/-! ## Which decoder is fed with what -/

/-- The discipline the history of feeds keeps. -/
structure FeedsInOrder (decoder : BlockDecoder rq) : Prop where
  /-- the current number is the one the current decoder was made with, and not before the first
      reset -/
  current : ∀ blockId, decoder.currentBlockId = some blockId →
    0 < decoder.instanceIdx ∧ decoder.number = blockId
  notPlaceholder : ∀ feed ∈ decoder.feeds,
    0 < feed.instanceIdx ∧ feed.instanceIdx ≤ decoder.instanceIdx
  ownNumber : ∀ feed ∈ decoder.feeds, rq.sourceBlockNumber feed.packet = feed.number
  returned : ∀ feed ∈ decoder.feeds, feed.instanceIdx = decoder.instanceIdx →
    feed.returned = true → decoder.currentBlockIsDecoded = true
  notAgain : decoder.feeds.Pairwise fun earlier later =>
    earlier.instanceIdx = later.instanceIdx → earlier.returned = false

theorem FeedsInOrder.reset {decoder : BlockDecoder rq} (inOrder : FeedsInOrder decoder)
    (blockId : UInt8) : FeedsInOrder (decoder.resetCurrentDecoder blockId) where
  current := fun other same => by
    cases same
    exact ⟨Nat.succ_pos _, rfl⟩
  notPlaceholder := fun feed member => by
    have bounds := inOrder.notPlaceholder feed member
    exact ⟨bounds.1, Nat.le_succ_of_le bounds.2⟩
  ownNumber := inOrder.ownNumber
  returned := fun feed member same => by
    have bounds := inOrder.notPlaceholder feed member
    simp only [resetCurrentDecoder] at same
    omega
  notAgain := inOrder.notAgain

theorem FeedsInOrder.tryDecode {decoder : BlockDecoder rq} (inOrder : FeedsInOrder decoder)
    {packet : rq.EncodingPacket}
    (current : decoder.currentBlockId = some (rq.sourceBlockNumber packet))
    (notDecoded : decoder.currentBlockIsDecoded = false) :
    FeedsInOrder (decoder.tryDecode packet).1 := by
  obtain ⟨positive, number⟩ := inOrder.current _ current
  rw [BlockDecoder.tryDecode]
  rcases rq.decode decoder.currentDecoder [packet] with ⟨decoded, next⟩
  have notPlaceholder : ∀ feed ∈ decoder.feeds ++
      [Feed.mk decoder.instanceIdx decoder.number packet decoded.isSome],
      0 < feed.instanceIdx ∧ feed.instanceIdx ≤ decoder.instanceIdx := by
    intro feed member
    rcases List.mem_append.mp member with earlier | last
    · exact inOrder.notPlaceholder feed earlier
    · cases List.mem_singleton.mp last
      exact ⟨positive, le_rfl⟩
  have ownNumber : ∀ feed ∈ decoder.feeds ++
      [Feed.mk decoder.instanceIdx decoder.number packet decoded.isSome],
      rq.sourceBlockNumber feed.packet = feed.number := by
    intro feed member
    rcases List.mem_append.mp member with earlier | last
    · exact inOrder.ownNumber feed earlier
    · cases List.mem_singleton.mp last
      exact number.symm
  -- the current decoder has not returned a block yet, or the packet would have been ignored
  have notAgain : (decoder.feeds ++
      [Feed.mk decoder.instanceIdx decoder.number packet decoded.isSome]).Pairwise
        fun earlier later =>
          earlier.instanceIdx = later.instanceIdx → earlier.returned = false := by
    refine List.pairwise_append.mpr ⟨inOrder.notAgain, List.pairwise_singleton _ _, ?_⟩
    intro earlier member last isLast same
    cases List.mem_singleton.mp isLast
    by_contra returned
    have decodedBefore := inOrder.returned earlier member same (by simpa using returned)
    rw [notDecoded] at decodedBefore
    cases decodedBefore
  cases decoded with
  | some block => exact ⟨inOrder.current, notPlaceholder, ownNumber, fun _ _ _ _ => rfl, notAgain⟩
  | none =>
    refine ⟨inOrder.current, notPlaceholder, ownNumber, ?_, notAgain⟩
    intro feed member same returned
    rcases List.mem_append.mp member with earlier | last
    · exact inOrder.returned feed earlier same returned
    · cases List.mem_singleton.mp last
      cases returned

theorem FeedsInOrder.decode {decoder : BlockDecoder rq} (inOrder : FeedsInOrder decoder)
    (packet : rq.EncodingPacket) : FeedsInOrder (decoder.decode packet).1 := by
  have afterReset : FeedsInOrder
      ((decoder.resetCurrentDecoder (rq.sourceBlockNumber packet)).tryDecode packet).1 :=
    (inOrder.reset (rq.sourceBlockNumber packet)).tryDecode rfl rfl
  rw [BlockDecoder.decode]
  cases current : decoder.currentBlockId with
  | none => exact afterReset
  | some blockId =>
    simp only
    split
    next same =>
      cases decoded : decoder.currentBlockIsDecoded with
      | true => simpa using inOrder
      | false => simpa using inOrder.tryDecode (same ▸ current) decoded
    next different => exact afterReset

theorem FeedsInOrder.decodeStream {decoder : BlockDecoder rq} (inOrder : FeedsInOrder decoder)
    (packets : List rq.EncodingPacket) : FeedsInOrder (decoder.decodeStream packets).1 := by
  induction packets generalizing decoder with
  | nil => exact inOrder
  | cons packet packets inductionHypothesis => exact inductionHypothesis (inOrder.decode packet)

/-- What `BlockDecoder::new` sets up. -/
theorem new_eq_ok {blockSize : Nat} {maxPacketSize : UInt16} {decoder : BlockDecoder rq} :
    new rq blockSize maxPacketSize = .ok decoder ↔
      ∃ config, getConfiguration rq blockSize maxPacketSize = .ok config ∧
        decoder = ⟨blockSize, config, none, rq.newDecoder 0 config blockSize, false, 0, 0, []⟩ := by
  rw [new, Outcome.bind_eq_ok]
  simp only [Outcome.mapErr_eq_ok, Outcome.ok.injEq, eq_comm]

theorem FeedsInOrder.new {blockSize : Nat} {maxPacketSize : UInt16} {decoder : BlockDecoder rq}
    (created : BlockDecoder.new rq blockSize maxPacketSize = .ok decoder) :
    FeedsInOrder decoder := by
  obtain ⟨config, -, rfl⟩ := new_eq_ok.mp created
  exact ⟨nofun, nofun, nofun, nofun, List.Pairwise.nil⟩

/-- `decode_stream` after `new` decodes run by run.  The decoder made in `new` is never fed, every
    other one is fed only with packets of its own number, and none after it has returned a block. -/
theorem decodeStream_refines_runs {blockSize : Nat} {maxPacketSize : UInt16}
    {decoder : BlockDecoder rq} (created : new rq blockSize maxPacketSize = .ok decoder)
    (packets : List rq.EncodingPacket) :
    (decoder.decodeStream packets).2 = decodeRuns decoder.config blockSize packets ∧
      (∀ feed ∈ (decoder.decodeStream packets).1.feeds,
        feed.instanceIdx ≠ 0 ∧ rq.sourceBlockNumber feed.packet = feed.number) ∧
      (decoder.decodeStream packets).1.feeds.Pairwise fun earlier later =>
        earlier.instanceIdx = later.instanceIdx → earlier.returned = false := by
  have inOrder := (FeedsInOrder.new created).decodeStream packets
  obtain ⟨config, -, rfl⟩ := new_eq_ok.mp created
  refine ⟨decodeStream_eq_decodeRuns _ packets nofun, ?_, inOrder.notAgain⟩
  intro feed member
  exact ⟨(inOrder.notPlaceholder feed member).1.ne', inOrder.ownNumber feed member⟩

/-- Number 0 arrives first and comes back after number 1; its second run is incomplete. -/
theorem decodeStream_refines_runs_systematic :
    ∃ decoder, new systematicCodec 16 8 = .ok decoder ∧
      (decoder.decodeStream
        [⟨0, 0, List.replicate 8 1⟩, ⟨0, 1, List.replicate 8 2⟩, ⟨0, 0, List.replicate 8 1⟩,
          ⟨1, 1, List.replicate 8 4⟩, ⟨1, 0, List.replicate 8 3⟩, ⟨0, 1, List.replicate 8 2⟩]).2 =
        [List.replicate 8 1 ++ List.replicate 8 2, List.replicate 8 3 ++ List.replicate 8 4] := by
  have created : new systematicCodec 16 8 =
      .ok ⟨16, 8, none, systematicCodec.newDecoder 0 8 16, false, 0, 0, []⟩ := rfl
  refine ⟨_, created, ?_⟩
  rw [(decodeStream_refines_runs created _).1]
  decide

end BlockDecoder

end GarudaCodec.Core
