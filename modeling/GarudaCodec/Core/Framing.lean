import GarudaCodec.Core.Decoder

/-! # Packet framing

The decoder never sees packet boundaries: it encodes a block of zeros to learn the size of a
packet and cuts its byte stream into pieces of that size.  All packets of one configuration have
that size, so the cuts fall where the encoder's packets end.
-/

namespace GarudaCodec.Core

open GarudaCodec.Foundation
open GarudaCodec.Foundation.Readers
open GarudaCodec.Foundation.Pipeline
open GarudaCodec.Core.Io

variable {rq : Raptorq} {blockSize : Nat} {maxPacketSize : UInt16}

/-- A packet of some block, from an encoder with this configuration and any repair count. -/
def Produced (rq : Raptorq) (blockSize : Nat) (maxPacketSize : UInt16)
    (packet : rq.EncodingPacket) : Prop :=
  ∃ repair encoder block packets,
    BlockEncoder.new rq blockSize maxPacketSize repair = .ok encoder ∧
      encoder.encode block = .ok packets ∧ packet ∈ packets

/-- An inferred packet size is the size of a payload id and one symbol. -/
theorem inferPacketSize_eq (framed : rq.Framed) {config : rq.ObjectTransmissionInformation}
    (configured : getConfiguration rq blockSize maxPacketSize = .ok config) {packetSize : Nat}
    (inferred : inferPacketSize rq blockSize maxPacketSize = .ok packetSize) :
    packetSize = 4 + (rq.symbolSize config).toNat := by
  rw [inferPacketSize] at inferred
  split at inferred
  next => cases inferred
  next => cases inferred
  next encoder created =>
  have accepted := (BlockEncoder.new_eq_ok.mp created).1
  dsimp only at inferred
  split at inferred
  next => cases inferred
  next => cases inferred
  next packets encodes =>
  split at inferred
  next => cases inferred
  next packet isHead =>
  cases inferred
  have packetOf := packetOf_of_mem_encode encodes packet (List.mem_of_mem_head? isHead)
  rw [framed.length_serialize packetOf, accepted.config_eq configured]

/-- Where an encoder is accepted, the packet size can be inferred. -/
theorem Accepted.inferPacketSize_ok (framed : rq.Framed) (counted : rq.Counted)
    {encoder : BlockEncoder rq} (accepted : Accepted blockSize maxPacketSize encoder) :
    inferPacketSize rq blockSize maxPacketSize =
      .ok (4 + (rq.symbolSize encoder.config).toNat) := by
  -- the encoder for the block of zeros differs only in its repair count
  have probeAccepted := accepted.with_repair 1
  have probe : BlockEncoder.new rq blockSize maxPacketSize 1 =
      .ok { encoder with repairPacketsPerBlock := 1 } :=
    BlockEncoder.new_eq_ok.mpr ⟨probeAccepted, rfl⟩
  obtain ⟨packets, encodes⟩ := probeAccepted.encode_ok counted
    (show (1 : UInt32).toNat ≤ 2 ^ 23 by decide)
    { id := 1, data := List.replicate blockSize 0 } List.length_replicate
  have count := probeAccepted.length_encode counted encodes
  cases packets with
  | nil => simp at count
  | cons packet packets =>
    have packetOf := packetOf_of_mem_encode encodes packet List.mem_cons_self
    rw [inferPacketSize, probe]
    simp only [encodes, List.head?_cons, framed.length_serialize packetOf]

/-- A produced packet fills the decoder's buffer and is recovered from it. -/
theorem Produced.whole (framed : rq.Framed) {config : rq.ObjectTransmissionInformation}
    (configured : getConfiguration rq blockSize maxPacketSize = .ok config)
    {packet : rq.EncodingPacket} (produced : Produced rq blockSize maxPacketSize packet) :
    Whole rq (4 + (rq.symbolSize config).toNat) packet := by
  obtain ⟨repair, encoder, block, packets, created, encodes, member⟩ := produced
  have accepted := (BlockEncoder.new_eq_ok.mp created).1
  have packetOf := packetOf_of_mem_encode encodes packet member
  exact ⟨by rw [framed.length_serialize packetOf, accepted.config_eq configured],
    framed.deserialize_serialize packetOf⟩

/-- The dispatcher's loop recovers the packets that lie completely before the end of the stream. -/
theorem dispatches_packets {workers : Nat} (positive : 0 < workers) {packetSize : Nat}
    (sizePositive : 0 < packetSize) {packets : List rq.EncodingPacket}
    (whole : ∀ packet ∈ packets, Whole rq packetSize packet) {input : Reader} {cut : Nat}
    (quiet : Quiet onError input)
    (bytes : contents input = (forwardPackets rq packets).take cut) :
    (decoderProgram rq positive).Dispatches { packetSize, input, isOpen := false }
      (packets.take (cut / packetSize)) .ok := by
  induction packets generalizing input cut with
  | nil =>
    have few : (contents input).length < packetSize := by
      rw [bytes]
      simpa [forwardPackets] using sizePositive
    rw [List.take_nil]
    exact .stop (PacketDispatcher.fetch_end quiet few)
  | cons packet packets inductionHypothesis =>
    have wholePacket := whole packet List.mem_cons_self
    have wholeRest := fun other member => whole other (List.mem_cons_of_mem packet member)
    rw [forwardPackets, List.flatMap_cons, ← forwardPackets, List.take_append,
      wholePacket.length] at bytes
    -- either the stream goes on behind this packet, or it ends inside it
    by_cases complete : packetSize ≤ cut
    · rw [List.take_of_length_le (by rw [wholePacket.length]; exact complete)] at bytes
      have sameQuiet : Quiet onError
          ({ packetSize, input, isOpen := false } : PacketDispatcher).input := quiet
      obtain ⟨rest, fetched, restQuiet, restBytes⟩ :=
        PacketDispatcher.fetch_packet sameQuiet wholePacket bytes
      rw [Nat.div_eq_sub_div sizePositive complete, List.take_succ_cons]
      exact .item fetched (inductionHypothesis wholeRest restQuiet restBytes)
    · have few : (contents input).length < packetSize := by
        rw [bytes, List.length_append, List.length_take, List.length_take]
        omega
      rw [Nat.div_eq_of_lt (Nat.lt_of_not_le complete), List.take_zero]
      exact .stop (PacketDispatcher.fetch_end quiet few)

/-- Decoder framing undoes encoder framing. -/
theorem framing_undone (framed : rq.Framed) (counted : rq.Counted) {repair : UInt32}
    {encoder : BlockEncoder rq}
    (created : BlockEncoder.new rq blockSize maxPacketSize repair = .ok encoder) :
    (∃ decoder, BlockDecoder.new rq blockSize maxPacketSize = .ok decoder) ∧
      ∃ packetSize, inferPacketSize rq blockSize maxPacketSize = .ok packetSize ∧
        ∀ packets : List rq.EncodingPacket,
          (∀ packet ∈ packets, Produced rq blockSize maxPacketSize packet) →
          (∀ packet ∈ packets, (rq.serialize packet).length = packetSize) ∧
            ∀ {workers : Nat} (positive : 0 < workers) (input : Reader) (cut : Nat),
              Quiet onError input →
              contents input = (forwardPackets rq packets).take cut →
              (decoderProgram rq positive).Dispatches { packetSize, input, isOpen := false }
                (packets.take (cut / packetSize)) .ok := by
  have accepted := (BlockEncoder.new_eq_ok.mp created).1
  refine ⟨⟨_, BlockDecoder.new_eq_ok.mpr ⟨_, accepted.configured, rfl⟩⟩, _,
    accepted.inferPacketSize_ok framed counted, ?_⟩
  intro packets produced
  have whole := fun packet member => (produced packet member).whole framed accepted.configured
  refine ⟨fun packet member => (whole packet member).length, ?_⟩
  intro workers positive input cut quiet bytes
  exact dispatches_packets positive (by omega) whole quiet bytes

/-- Two packets of 12 bytes arrive in odd pieces and with a timeout, the second one cut short. -/
theorem framing_undone_systematic :
    (decoderProgram systematicCodec Nat.one_pos).Dispatches
      { packetSize := 12
        input := [.data [7, 0, 0, 0, 1], .fail .timedOut false, .data [1, 1, 1, 1, 1, 1, 1, 7, 0],
          .fail .interrupted false, .data [0, 1, 2]]
        isOpen := false }
      [⟨7, 0, List.replicate 8 1⟩] .ok := by
  have created : BlockEncoder.new systematicCodec 16 8 0 = .ok ⟨16, 0, 8, 2⟩ := rfl
  have encodes : BlockEncoder.encode (⟨16, 0, 8, 2⟩ : BlockEncoder systematicCodec)
      ⟨7, List.replicate 8 1 ++ List.replicate 8 2⟩ =
        .ok [⟨7, 1, List.replicate 8 2⟩, ⟨7, 0, List.replicate 8 1⟩] := by decide
  have produced : ∀ packet ∈
      ([⟨7, 0, List.replicate 8 1⟩, ⟨7, 1, List.replicate 8 2⟩] : List Systematic.Packet),
      Produced systematicCodec 16 8 packet := fun packet member =>
    ⟨0, _, _, _, created, encodes, by simpa [or_comm] using member⟩
  obtain ⟨_, packetSize, inferred, recovers⟩ :=
    framing_undone Systematic.framed Systematic.counted created
  obtain rfl : 12 = packetSize := by
    have size : inferPacketSize systematicCodec 16 8 = .ok 12 := rfl
    rw [size] at inferred
    cases inferred
    rfl
  refine (recovers _ produced).2 Nat.one_pos _ 17 ?_ (by decide)
  simp [Quiet, onError]

end GarudaCodec.Core
