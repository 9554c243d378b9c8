import GarudaCodec.Core.Threads
import GarudaCodec.Foundation.PipelineRuns

/-! # The size of the packets on the wire

The symbol size is the maximum packet size rounded down to the alignment of `raptorq`, and a packet
is a symbol behind a payload id of 4 bytes.  Rounding makes room for the payload id only where it
takes off 4 bytes or more.
-/

namespace GarudaCodec.Core

open GarudaCodec.Foundation
open GarudaCodec.Foundation.Lanes
open GarudaCodec.Foundation.Readers
open GarudaCodec.Foundation.Pipeline
open GarudaCodec.Core.Io
open GarudaCodec.Core.Raptorq (alignedSize)

variable {rq : Raptorq} {workers : Nat} {positive : 0 < workers} {blockSize : Nat}
variable {maxPacketSize : UInt16} {encoder : BlockEncoder rq}

/-- A packet whose bytes `forward_packets` has passed to `write_all`. -/
def Forwarded (s : EncoderState rq workers) (packet : Sourced rq.EncodingPacket) : Prop :=
  packet ∈ s.written ∨ s.sinkPhase = .running [packet]

/-- In no run of an encoder with these sizes does the forwarder write more bytes at once than a
    packet may have, whatever its number of workers and of repair packets and whatever it reads. -/
def PacketsFit (rq : Raptorq) (blockSize : Nat) (maxPacketSize : UInt16) : Prop :=
  ∀ (workers : Nat) (positive : 0 < workers) repair random input start encoder,
    (Encoder.new workers blockSize maxPacketSize repair).startEncoding rq random input =
      (.ok start, encoder) →
    ∀ s, Reachable (encoderProgram rq positive) start s →
      ∀ packet, Forwarded s packet →
        (rq.serialize packet.item).length ≤ maxPacketSize.toNat

/-! ## Every packet that is written -/

/-- What the forwarder writes comes from a block. -/
theorem Encodes.emitted_of_forwarded {dispatcher : BlockDispatcher} {s : EncoderState rq workers}
    (encodes : Encodes positive encoder dispatcher s) {packet : Sourced rq.EncodingPacket}
    (forwarded : Forwarded s packet) : ∃ block, packet ∈ emitted encoder block := by
  have merged : packet ∈ s.merged.map Prod.snd := by
    obtain ⟨rest, split, held⟩ := encodes.wired.forwarded
    rw [split]
    cases forwarded with
    | inl written => simp [written]
    | inr writing =>
      rw [writing] at held
      cases held
      simp
  obtain ⟨⟨key, _⟩, inMerged, rfl⟩ := List.mem_map.mp merged
  have inLane := (encodes.lane_prefix key).subset (mem_lane.mpr inMerged)
  obtain ⟨block, -, isEmitted⟩ := List.mem_flatMap.mp inLane
  exact ⟨block, isEmitted⟩

theorem Encodes.length_of_forwarded (framed : rq.Framed) {dispatcher : BlockDispatcher}
    {s : EncoderState rq workers} (encodes : Encodes positive encoder dispatcher s)
    {packet : Sourced rq.EncodingPacket} (forwarded : Forwarded s packet) :
    (rq.serialize packet.item).length = 4 + (rq.symbolSize encoder.config).toNat := by
  obtain ⟨block, isEmitted⟩ := encodes.emitted_of_forwarded forwarded
  exact framed.length_serialize (mem_emitted isEmitted).2

/-! ## Some packet is written -/

/-- A pending packet can be brought to the forwarder and written. -/
theorem exists_forwarded {s : EncoderState rq workers} {key : Fin workers}
    {packet : Sourced rq.EncodingPacket} {pending : List (Sourced rq.EncodingPacket)}
    (sending : Sending s key (packet :: pending)) :
    ∃ s', Reachable (encoderProgram rq positive) s s' ∧ packet ∈ s'.written :=
  ⟨_, (sending.reaches_sink (encoderProgram rq positive)).tail (.sinkWrite rfl), by simp⟩

/-- A block has at least one source symbol. -/
theorem Accepted.symbolCount_pos (rejects : rq.RejectsEmpty)
    (accepted : Accepted blockSize maxPacketSize encoder) :
    0 < blockSize / (rq.symbolSize encoder.config).toNat := by
  have notEmpty := accepted.blockSize_pos rejects
  rw [← accepted.multiple] at notEmpty
  exact Nat.pos_of_mul_pos_right notEmpty

/-- An encoder that is given one block can write a packet of it. -/
theorem Accepted.exists_written (counted : rq.Counted) (rejects : rq.RejectsEmpty)
    (accepted : Accepted blockSize maxPacketSize encoder)
    (few : encoder.repairPacketsPerBlock.toNat ≤ 2 ^ 23) :
    ∃ s, Reachable (encoderProgram rq Nat.one_pos)
        (State.start ⟨blockSize, 0, [.data (List.replicate blockSize 0)], 0⟩ fun _ => encoder) s ∧
      ∃ packet, packet ∈ s.written := by
  obtain ⟨packets, encodes⟩ :=
    accepted.encode_ok counted few ⟨0, List.replicate blockSize 0⟩ List.length_replicate
  have symbols := accepted.symbolCount_pos rejects
  have count := accepted.length_encode counted encodes
  cases packets with
  | nil =>
    rw [List.length_nil] at count
    omega
  | cons packet packets =>
    have quiet : Quiet onError [.data (List.replicate blockSize 0)] := by
      simpa [Quiet] using (accepted.blockSize_pos rejects).ne'
    obtain ⟨rest, reads, -⟩ := quiet.reads_front (contents_data _ [])
    rw [List.length_replicate] at reads
    have fetched : (encoderProgram rq Nat.one_pos).fetch
        ⟨blockSize, 0, [.data (List.replicate blockSize 0)], 0⟩ = _ :=
      BlockDispatcher.fetch_of_ok reads
    have worked : (encoderProgram rq Nat.one_pos).work encoder
        ⟨0, ⟨0, List.replicate blockSize 0⟩⟩ =
          .outputs encoder ((packet :: packets).map fun packet => ⟨0, packet⟩) := by
      simp only [encoderProgram, BlockEncoder.encodeNext, encodes]
    have idle : Idle (State.start ⟨blockSize, 0, [.data (List.replicate blockSize 0)], 0⟩
      fun _ => encoder : EncoderState rq 1) := .start _ _
    obtain ⟨mid, reachesMid, sending, -⟩ := idle.exists_sending fetched worked
    obtain ⟨s, reaches, written⟩ := exists_forwarded sending
    exact ⟨s, reachesMid.trans reaches, _, written⟩

/-! ## The bound -/

/-- Packets keep to the maximum packet size exactly if rounding it down to the alignment takes off
    the size of the payload id.  That `raptorq` rounds also where packets are very small is an
    assumption of its own. -/
theorem packets_fit_iff (framed : rq.Framed) (counted : rq.Counted) (rejects : rq.RejectsEmpty)
    (rounds : rq.Rounds) {someRepair : UInt32}
    (created : BlockEncoder.new rq blockSize maxPacketSize someRepair = .ok encoder)
    (roundsSmall : maxPacketSize.toNat < 64 →
      (rq.symbolSize encoder.config).toNat = alignedSize maxPacketSize) :
    PacketsFit rq blockSize maxPacketSize ↔ 4 ≤ maxPacketSize.toNat % 8 := by
  have accepted := (BlockEncoder.new_eq_ok.mp created).1
  have rounded : (rq.symbolSize encoder.config).toNat = alignedSize maxPacketSize := by
    cases Nat.lt_or_ge maxPacketSize.toNat 64 with
    | inl small => exact roundsSmall small
    | inr large => exact rounds large (getConfiguration_eq_ok.mp accepted.configured).1
  have below := Nat.mod_le maxPacketSize.toNat 8
  rw [alignedSize] at rounded
  constructor
  · intro fits
    have noRepair := accepted.with_repair 0
    obtain ⟨_, starts⟩ := Encoder.startEncoding_ok 1
      (BlockEncoder.new_eq_ok.mpr ⟨noRepair, rfl⟩) 0 [.data (List.replicate blockSize 0)]
    obtain ⟨s, reachable, packet, written⟩ :=
      noRepair.exists_written counted rejects (by simp)
    have bound := fits 1 Nat.one_pos _ _ _ _ _ starts s reachable packet (Or.inl written)
    rw [((Encodes.start Nat.one_pos _ _).reachable reachable).length_of_forwarded framed
      (Or.inl written), rounded] at bound
    omega
  · intro room workers positive repair random input start started starts s reachable packet
      forwarded
    obtain ⟨⟨currentBlockId, blockEncoder, -, other, rfl⟩, -⟩ :=
      Encoder.startEncoding_eq_ok positive starts
    have same := (BlockEncoder.new_eq_ok.mp other).1.config_eq accepted.configured
    have encodes := (Encodes.start positive blockEncoder _).reachable reachable
    rw [encodes.length_of_forwarded framed forwarded, same, rounded]
    omega

/-- With the default packet size there is room. -/
theorem packets_fit_iff_systematic : PacketsFit systematicCodec 287232 1500 := by
  have created : BlockEncoder.new systematicCodec 287232 1500 0 = .ok ⟨287232, 0, 1496, 192⟩ := rfl
  exact (packets_fit_iff Systematic.framed Systematic.counted Systematic.rejectsEmpty
    Systematic.rounds created (fun small => absurd small (by decide))).mpr (by decide)

/-- A packet size that is a multiple of 8 leaves none: every packet is 4 bytes too long. -/
theorem packets_too_long :
    (∃ start encoder s packet,
      (Encoder.new 1 287264 1504 0).startEncoding systematicCodec (.ok 0)
        [.data (List.replicate 287264 0)] = (.ok start, encoder) ∧
      Reachable (encoderProgram systematicCodec Nat.one_pos) start s ∧
      packet ∈ s.written ∧ (systematicCodec.serialize packet.item).length = 1508) ∧
    ¬PacketsFit systematicCodec 287264 1504 := by
  have created : BlockEncoder.new systematicCodec 287264 1504 0 = .ok ⟨287264, 0, 1504, 191⟩ := rfl
  obtain ⟨_, starts⟩ := Encoder.startEncoding_ok 1 created 0 [.data (List.replicate 287264 0)]
  obtain ⟨s, reachable, packet, written⟩ := (BlockEncoder.new_eq_ok.mp created).1.exists_written
    Systematic.counted Systematic.rejectsEmpty (by simp)
  have length := ((Encodes.start Nat.one_pos _ _).reachable reachable).length_of_forwarded
    Systematic.framed (Or.inl written)
  have long : (systematicCodec.serialize packet.item).length = 1508 := length
  refine ⟨⟨_, _, s, packet, starts, reachable, written, long⟩, fun fits => ?_⟩
  have bound := fits 1 Nat.one_pos _ _ _ _ _ starts s reachable packet (Or.inl written)
  rw [long] at bound
  exact absurd bound (by decide)

end GarudaCodec.Core
