import Mathlib.Algebra.Ring.Nat
import Mathlib.Data.List.Basic
import GarudaCodec.Foundation.Outcome

/-! # The `raptorq` crate as a parameter

The codec calls `raptorq` but does not contain it, so its functions are a parameter of the whole
development.  A call that panics when a precondition is violated returns an `Option`.  What the
codec relies on is stated in separate structures, each taken as a hypothesis only where it is
used.
-/

namespace GarudaCodec.Core

/-- The types and functions of `raptorq` the codec uses. -/
structure Raptorq where
  ObjectTransmissionInformation : Type
  withDefaults : Nat → UInt16 → Option ObjectTransmissionInformation
  symbolSize : ObjectTransmissionInformation → UInt16
  SourceBlockEncodingPlan : Type
  generate : UInt16 → Option SourceBlockEncodingPlan
  EncodingPacket : Type
  sourceBlockNumber : EncodingPacket → UInt8
  encodingSymbolId : EncodingPacket → UInt32
  data : EncodingPacket → List UInt8
  serialize : EncodingPacket → List UInt8
  deserialize : List UInt8 → EncodingPacket
  SourceBlockEncoder : Type
  withEncodingPlan : UInt8 → ObjectTransmissionInformation → List UInt8 →
    SourceBlockEncodingPlan → Option SourceBlockEncoder
  sourcePackets : SourceBlockEncoder → List EncodingPacket
  repairPackets : SourceBlockEncoder → UInt32 → UInt32 → Option (List EncodingPacket)
  SourceBlockDecoder : Type
  newDecoder : UInt8 → ObjectTransmissionInformation → Nat → SourceBlockDecoder
  decode : SourceBlockDecoder → List EncodingPacket → Option (List UInt8) × SourceBlockDecoder

namespace Raptorq

variable (rq : Raptorq)

/-- A packet that an encoder for one block hands out, as a source or as a repair packet. -/
def Emits (encoder : rq.SourceBlockEncoder) (packet : rq.EncodingPacket) : Prop :=
  packet ∈ rq.sourcePackets encoder ∨
    ∃ start count packets, rq.repairPackets encoder start count = some packets ∧ packet ∈ packets

/-- A packet of the block `data` with the number `id`. -/
def PacketOf (id : UInt8) (config : rq.ObjectTransmissionInformation) (data : List UInt8)
    (packet : rq.EncodingPacket) : Prop :=
  ∃ plan encoder, rq.withEncodingPlan id config data plan = some encoder ∧
    rq.Emits encoder packet

/-- Feeds packets to a decoder one by one and returns the first block it gives out. -/
def firstDecoded : rq.SourceBlockDecoder → List rq.EncodingPacket → Option (List UInt8)
  | _, [] => none
  | decoder, packet :: packets =>
    match rq.decode decoder [packet] with
    | (some block, _) => some block
    | (none, decoder) => firstDecoded decoder packets

/-- Packets carry the number of their block; on the wire a packet is a 4-byte payload id followed
    by one symbol, and `deserialize` undoes `serialize`. -/
structure Framed : Prop where
  source_block_number : ∀ {id config data packet}, rq.PacketOf id config data packet →
    rq.sourceBlockNumber packet = id
  length_serialize : ∀ {id config data packet}, rq.PacketOf id config data packet →
    (rq.serialize packet).length = 4 + (rq.symbolSize config).toNat
  deserialize_serialize : ∀ {id config data packet}, rq.PacketOf id config data packet →
    rq.deserialize (rq.serialize packet) = packet

/-- A plan made for `count` symbols fits every block of that many symbols, which then has `count`
    source packets, and as many repair packets as requested while the symbol ids fit 24 bits. -/
structure Counted : Prop where
  plan_fits : ∀ {count plan} (id config data), rq.generate count = some plan →
    data.length = count.toNat * (rq.symbolSize config).toNat →
    ∃ encoder, rq.withEncodingPlan id config data plan = some encoder
  length_sourcePackets : ∀ {id config data plan encoder},
    rq.withEncodingPlan id config data plan = some encoder →
    (rq.sourcePackets encoder).length = data.length / (rq.symbolSize config).toNat
  repair_fits : ∀ {id config data plan encoder} (start count : UInt32),
    rq.withEncodingPlan id config data plan = some encoder →
    data.length / (rq.symbolSize config).toNat + start.toNat + count.toNat ≤ 2 ^ 24 →
    ∃ packets, rq.repairPackets encoder start count = some packets
  length_repairPackets : ∀ {encoder start count packets},
    rq.repairPackets encoder start count = some packets → packets.length = UInt32.toNat count

/-- The source packets of a block are numbered from 0 and the repair packets go on from there; it
    has as many repair packets as requested exactly if their symbol ids are below `limit`. -/
structure Numbered (limit : Nat) : Prop where
  limit_le : limit ≤ 2 ^ 32
  source_ids : ∀ {id config data plan encoder},
    rq.withEncodingPlan id config data plan = some encoder →
    (rq.sourcePackets encoder).map rq.encodingSymbolId =
      (List.range (data.length / (rq.symbolSize config).toNat)).map UInt32.ofNat
  repair_ids : ∀ {id config data plan encoder count packets},
    rq.withEncodingPlan id config data plan = some encoder →
    rq.repairPackets encoder 0 count = some packets →
    packets.map rq.encodingSymbolId =
      (List.range' (data.length / (rq.symbolSize config).toNat) count.toNat).map UInt32.ofNat
  repair_iff : ∀ {id config data plan encoder} (count : UInt32),
    rq.withEncodingPlan id config data plan = some encoder →
    ((∃ packets, rq.repairPackets encoder 0 count = some packets) ↔
      data.length / (rq.symbolSize config).toNat + count.toNat ≤ limit)

/-- The largest multiple of the symbol alignment, 8 bytes, that is not above the packet size. -/
def alignedSize (maxPacketSize : UInt16) : Nat := maxPacketSize.toNat - maxPacketSize.toNat % 8

/-- A configuration has the symbol size of its packet size, rounded down, for packet sizes that are
    not too small. -/
def Rounds : Prop :=
  ∀ {transferLength maxPacketSize config}, 64 ≤ maxPacketSize.toNat →
    rq.withDefaults transferLength maxPacketSize = some config →
    (rq.symbolSize config).toNat = alignedSize maxPacketSize

/-- The largest number of symbols in a source block. -/
def maxSourceSymbols : Nat := 56403

/-- There are plans for all blocks of one symbol or more that are small enough, and for no larger
    ones: making such a plan panics. -/
def Plans : Prop :=
  ∀ count : UInt16, 0 < count.toNat →
    ((∃ plan, rq.generate count = some plan) ↔ count.toNat ≤ maxSourceSymbols)

/-- There is no configuration for empty blocks: the symbols of a block are dealt out to as many
    source blocks as they need, and dividing them among none panics. -/
def RejectsEmpty : Prop :=
  ∀ maxPacketSize, rq.withDefaults 0 maxPacketSize = none

/-- A decoder that is fed only packets of one block gives out nothing or that block. -/
def Sound : Prop :=
  ∀ {id config data packets block}, (∀ packet ∈ packets, rq.PacketOf id config data packet) →
    rq.firstDecoded (rq.newDecoder id config data.length) packets = some block → block = data

/-- A decoder that is fed packets of one block, all its source packets among them, gives out that
    block. -/
def Complete : Prop :=
  ∀ {id config data plan encoder packets}, 0 < data.length →
    rq.withEncodingPlan id config data plan = some encoder →
    (∀ packet ∈ packets, rq.PacketOf id config data packet) →
    (∀ packet ∈ rq.sourcePackets encoder, packet ∈ packets) →
    rq.firstDecoded (rq.newDecoder id config data.length) packets = some data

variable {rq}

theorem firstDecoded_append {decoder : rq.SourceBlockDecoder} {front : List rq.EncodingPacket}
    {block : List UInt8} (decoded : rq.firstDecoded decoder front = some block)
    (back : List rq.EncodingPacket) : rq.firstDecoded decoder (front ++ back) = some block := by
  induction front generalizing decoder with
  | nil => simp [firstDecoded] at decoded
  | cons packet front inductionHypothesis =>
    rw [List.cons_append, firstDecoded]
    rw [firstDecoded] at decoded
    split at decoded
    · exact decoded
    · exact inductionHypothesis decoded

end Raptorq

end GarudaCodec.Core
