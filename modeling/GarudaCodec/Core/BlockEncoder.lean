import GarudaCodec.Core.Raptorq
import GarudaCodec.Core.Vector

/-! # `block_encoder.rs`

The configuration shared by both sides, and the encoding of one block into its packets.
-/

namespace GarudaCodec.Core

open GarudaCodec.Foundation
open GarudaCodec.Core.Vector (interleave mem_interleave mem_of_mem_interleave length_interleave)

variable {rq : Raptorq}

structure Block where
  id : UInt8
  data : List UInt8
deriving DecidableEq, Repr

inductive ConfigurationError where
  | invalidBlockSize (blockSize symbolSize : Nat)
deriving DecidableEq, Repr

/-- `impl fmt::Display for ConfigurationError`. -/
def ConfigurationError.display : ConfigurationError → String
  | .invalidBlockSize blockSize symbolSize =>
    s!"Block size {blockSize} is not a multiple of symbol size {symbolSize}"

/-- The errors of a block encoder; the failed send is part of the thread model. -/
inductive BlockEncoderError where
  | unexpectedBlockSize
  | invalidConfiguration (message : String)
deriving DecidableEq, Repr

/-- `impl From<ConfigurationError> for BlockEncoderError`. -/
def BlockEncoderError.ofConfigurationError (error : ConfigurationError) : BlockEncoderError :=
  .invalidConfiguration error.display

/-- `impl fmt::Display for BlockEncoderError`. -/
def BlockEncoderError.display : BlockEncoderError → String
  | .unexpectedBlockSize => "Block size does not match encoder configuration"
  | .invalidConfiguration message => message

def getConfiguration (rq : Raptorq) (blockSize : Nat) (maxPacketSize : UInt16) :
    Outcome ConfigurationError rq.ObjectTransmissionInformation := do
  let config ← Outcome.orPanic (rq.withDefaults blockSize maxPacketSize)
  let symbolSize := (rq.symbolSize config).toNat
  -- `is_multiple_of`: only 0 is a multiple of 0
  if blockSize % symbolSize = 0 then
    .ok config
  else
    .err (.invalidBlockSize blockSize symbolSize)

structure BlockEncoder (rq : Raptorq) where
  blockSize : Nat
  repairPacketsPerBlock : UInt32
  config : rq.ObjectTransmissionInformation
  encodingPlan : rq.SourceBlockEncodingPlan

def BlockEncoder.new (rq : Raptorq) (blockSize : Nat) (maxPacketSize : UInt16)
    (repairPacketsPerBlock : UInt32) : Outcome BlockEncoderError (BlockEncoder rq) := do
  let config ← (getConfiguration rq blockSize maxPacketSize).mapErr .ofConfigurationError
  let symbolSize := (rq.symbolSize config).toNat
  if symbolSize = 0 then
    .panic
  else
    let symbolCount := blockSize / symbolSize
    if symbolCount < 2 ^ 16 then do
      let encodingPlan ← Outcome.orPanic (rq.generate (UInt16.ofNat symbolCount))
      .ok { blockSize, repairPacketsPerBlock, config, encodingPlan }
    else
      .err (.invalidConfiguration "Cannot safely cast symbol_count to u16")

def BlockEncoder.encode (encoder : BlockEncoder rq) (block : Block) :
    Outcome BlockEncoderError (List rq.EncodingPacket) :=
  if block.data.length ≠ encoder.blockSize then
    .err .unexpectedBlockSize
  else do
    let blockEncoder ← Outcome.orPanic
      (rq.withEncodingPlan block.id encoder.config block.data encoder.encodingPlan)
    let sourcePackets := rq.sourcePackets blockEncoder
    let repairPackets ← Outcome.orPanic
      (rq.repairPackets blockEncoder 0 encoder.repairPacketsPerBlock)
    .ok (interleave sourcePackets repairPackets)

/-- The errors `compute_repair_packets_per_block` boxes. -/
inductive RepairPacketsError where
  | configuration (error : ConfigurationError)
  | tryFromInt
deriving DecidableEq, Repr

/-- The product of two `u32`: a build with overflow checks panics where others wrap. -/
def mulU32 (overflowChecks : Bool) (left right : UInt32) : Option UInt32 :=
  if overflowChecks ∧ 2 ^ 32 ≤ left.toNat * right.toNat then none else some (left * right)

/-- `u32::div_ceil`. -/
def divCeil (dividend divisor : UInt32) : UInt32 :=
  if 0 < dividend % divisor then dividend / divisor + 1 else dividend / divisor

def computeRepairPacketsPerBlock (overflowChecks : Bool) (rq : Raptorq) (blockSize : Nat)
    (maxPacketSize : UInt16) (redundancyFactor : UInt32) : Outcome RepairPacketsError UInt32 := do
  let config ← (getConfiguration rq blockSize maxPacketSize).mapErr .configuration
  let symbolSize := (rq.symbolSize config).toNat
  if symbolSize = 0 then
    .panic
  else if blockSize / symbolSize < 2 ^ 32 then do
    let numSourceSymbols := UInt32.ofNat (blockSize / symbolSize)
    let product ← Outcome.orPanic (mulU32 overflowChecks numSourceSymbols redundancyFactor)
    .ok (divCeil product 100)
  else
    .err .tryFromInt

/-! ## What the checks let through -/

theorem getConfiguration_eq_ok {blockSize : Nat} {maxPacketSize : UInt16}
    {config : rq.ObjectTransmissionInformation} :
    getConfiguration rq blockSize maxPacketSize = .ok config ↔
      rq.withDefaults blockSize maxPacketSize = some config ∧
        blockSize % (rq.symbolSize config).toNat = 0 := by
  rw [getConfiguration, Outcome.bind_eq_ok]
  constructor
  · rintro ⟨other, chosen, checked⟩
    dsimp only at checked
    split at checked
    · cases checked
      exact ⟨Outcome.orPanic_eq_ok.mp chosen, by assumption⟩
    · cases checked
  · rintro ⟨chosen, multiple⟩
    exact ⟨config, Outcome.orPanic_eq_ok.mpr chosen, by rw [if_pos multiple]⟩

/-- A block of a configuration consists of whole symbols. -/
theorem blockSize_of_configured {blockSize : Nat} {maxPacketSize : UInt16}
    {config : rq.ObjectTransmissionInformation}
    (configured : getConfiguration rq blockSize maxPacketSize = .ok config) :
    blockSize / (rq.symbolSize config).toNat * (rq.symbolSize config).toNat = blockSize := by
  have divides := (getConfiguration_eq_ok.mp configured).2
  exact Nat.div_mul_cancel (Nat.dvd_of_mod_eq_zero divides)

/-- Everything `BlockEncoder::new` establishes. -/
structure Accepted (blockSize : Nat) (maxPacketSize : UInt16) (encoder : BlockEncoder rq) :
    Prop where
  configured : getConfiguration rq blockSize maxPacketSize = .ok encoder.config
  size : encoder.blockSize = blockSize
  symbolSize_pos : 0 < (rq.symbolSize encoder.config).toNat
  symbolCount_lt : blockSize / (rq.symbolSize encoder.config).toNat < 2 ^ 16
  plan : rq.generate (UInt16.ofNat (blockSize / (rq.symbolSize encoder.config).toNat)) =
    some encoder.encodingPlan

theorem BlockEncoder.new_eq_ok {blockSize : Nat} {maxPacketSize : UInt16} {repair : UInt32}
    {encoder : BlockEncoder rq} :
    BlockEncoder.new rq blockSize maxPacketSize repair = .ok encoder ↔
      Accepted blockSize maxPacketSize encoder ∧ encoder.repairPacketsPerBlock = repair := by
  rw [BlockEncoder.new, Outcome.bind_eq_ok]
  constructor
  · rintro ⟨config, configured, checked⟩
    rw [Outcome.mapErr_eq_ok] at configured
    dsimp only at checked
    split at checked
    · cases checked
    next positive =>
    split at checked
    next small =>
      obtain ⟨plan, planned, built⟩ := Outcome.bind_eq_ok.mp checked
      cases built
      exact ⟨⟨configured, rfl, Nat.pos_of_ne_zero positive, small,
        Outcome.orPanic_eq_ok.mp planned⟩, rfl⟩
    · cases checked
  · rintro ⟨accepted, rfl⟩
    refine ⟨encoder.config, Outcome.mapErr_eq_ok.mpr accepted.configured, ?_⟩
    rw [if_neg accepted.symbolSize_pos.ne', if_pos accepted.symbolCount_lt, accepted.plan]
    simp [← accepted.size]

/-- The number of source symbols of a block. -/
def BlockEncoder.symbolCount (encoder : BlockEncoder rq) : Nat :=
  encoder.blockSize / (rq.symbolSize encoder.config).toNat

theorem Accepted.multiple {blockSize : Nat} {maxPacketSize : UInt16} {encoder : BlockEncoder rq}
    (accepted : Accepted blockSize maxPacketSize encoder) :
    blockSize / (rq.symbolSize encoder.config).toNat * (rq.symbolSize encoder.config).toNat =
      blockSize := by
  exact blockSize_of_configured accepted.configured

/-- The configuration does not depend on the repair count. -/
theorem Accepted.config_eq {blockSize : Nat} {maxPacketSize : UInt16} {encoder : BlockEncoder rq}
    (accepted : Accepted blockSize maxPacketSize encoder)
    {config : rq.ObjectTransmissionInformation}
    (configured : getConfiguration rq blockSize maxPacketSize = .ok config) :
    encoder.config = config := by
  have same := accepted.configured
  rw [configured] at same
  cases same
  rfl

theorem Accepted.with_repair {blockSize : Nat} {maxPacketSize : UInt16}
    {encoder : BlockEncoder rq} (accepted : Accepted blockSize maxPacketSize encoder)
    (repair : UInt32) :
    Accepted blockSize maxPacketSize { encoder with repairPacketsPerBlock := repair } :=
  ⟨accepted.configured, accepted.size, accepted.symbolSize_pos, accepted.symbolCount_lt,
    accepted.plan⟩

theorem Accepted.symbolCount_small {blockSize : Nat} {maxPacketSize : UInt16}
    {encoder : BlockEncoder rq} (accepted : Accepted blockSize maxPacketSize encoder) :
    encoder.symbolCount < 2 ^ 16 := by
  rw [BlockEncoder.symbolCount, accepted.size]
  exact accepted.symbolCount_lt

theorem Accepted.blockSize_pos {blockSize : Nat} {maxPacketSize : UInt16}
    {encoder : BlockEncoder rq} (rejects : rq.RejectsEmpty)
    (accepted : Accepted blockSize maxPacketSize encoder) : 0 < blockSize := by
  apply Nat.pos_of_ne_zero
  rintro rfl
  have chosen := (getConfiguration_eq_ok.mp accepted.configured).1
  rw [rejects] at chosen
  cases chosen

/-! ## The packets of a block -/

/-- The packets of a block are the merge of an encoder's source and repair packets. -/
theorem BlockEncoder.encode_eq_ok {encoder : BlockEncoder rq} {block : Block}
    {packets : List rq.EncodingPacket} :
    encoder.encode block = .ok packets ↔
      block.data.length = encoder.blockSize ∧ ∃ blockEncoder repairPackets,
        rq.withEncodingPlan block.id encoder.config block.data encoder.encodingPlan =
          some blockEncoder ∧
        rq.repairPackets blockEncoder 0 encoder.repairPacketsPerBlock = some repairPackets ∧
        packets = interleave (rq.sourcePackets blockEncoder) repairPackets := by
  rw [BlockEncoder.encode]
  split
  next different => simp [different]
  next same =>
    constructor
    · intro encoded
      obtain ⟨blockEncoder, planned, rest⟩ := Outcome.bind_eq_ok.mp encoded
      obtain ⟨repairPackets, repaired, built⟩ := Outcome.bind_eq_ok.mp rest
      cases built
      exact ⟨not_not.mp same, blockEncoder, repairPackets, Outcome.orPanic_eq_ok.mp planned,
        Outcome.orPanic_eq_ok.mp repaired, rfl⟩
    · intro ⟨_, blockEncoder, repairPackets, planned, repaired, merged⟩
      rw [planned, Outcome.orPanic_some, Outcome.bind_ok, repaired, merged]
      rfl

theorem packetOf_of_mem_encode {encoder : BlockEncoder rq} {block : Block}
    {packets : List rq.EncodingPacket} (encoded : encoder.encode block = .ok packets) :
    ∀ packet ∈ packets, rq.PacketOf block.id encoder.config block.data packet := by
  obtain ⟨-, blockEncoder, repairPackets, planned, repaired, rfl⟩ :=
    BlockEncoder.encode_eq_ok.mp encoded
  intro packet member
  refine ⟨encoder.encodingPlan, blockEncoder, planned, ?_⟩
  cases mem_of_mem_interleave member with
  | inl inSource => exact Or.inl inSource
  | inr inRepair => exact Or.inr ⟨_, _, repairPackets, repaired, inRepair⟩

section Accepted

variable {blockSize : Nat} {maxPacketSize : UInt16} {encoder : BlockEncoder rq}

/-- The index arithmetic of `interleave` stays within 64 bits for all packets of a block. -/
theorem Accepted.noWrap (accepted : Accepted blockSize maxPacketSize encoder)
    (counted : rq.Counted) {block : Block} {blockEncoder : rq.SourceBlockEncoder}
    {repairPackets : List rq.EncodingPacket} {repair : UInt32}
    (size : block.data.length = encoder.blockSize)
    (planned : rq.withEncodingPlan block.id encoder.config block.data encoder.encodingPlan =
      some blockEncoder)
    (repaired : rq.repairPackets blockEncoder 0 repair = some repairPackets) :
    min (rq.sourcePackets blockEncoder).length repairPackets.length *
      ((rq.sourcePackets blockEncoder).length + repairPackets.length) < 2 ^ 64 := by
  have few : (rq.sourcePackets blockEncoder).length < 2 ^ 16 := by
    rw [counted.length_sourcePackets planned, size, accepted.size]
    exact accepted.symbolCount_lt
  have many : repairPackets.length < 2 ^ 32 := by
    rw [counted.length_repairPackets repaired]
    exact repair.toNat_lt
  calc
    _ ≤ 2 ^ 16 * (2 ^ 16 + 2 ^ 32) := Nat.mul_le_mul (by omega) (by omega)
    _ < 2 ^ 64 := by decide

/-- The plan of an accepted encoder fits every block of its size. -/
theorem Accepted.planned (accepted : Accepted blockSize maxPacketSize encoder)
    (counted : rq.Counted) (block : Block) (size : block.data.length = blockSize) :
    ∃ blockEncoder, rq.withEncodingPlan block.id encoder.config block.data encoder.encodingPlan =
      some blockEncoder := by
  have count : (UInt16.ofNat (blockSize / (rq.symbolSize encoder.config).toNat)).toNat =
      blockSize / (rq.symbolSize encoder.config).toNat :=
    UInt16.toNat_ofNat_of_lt accepted.symbolCount_lt
  exact counted.plan_fits block.id encoder.config block.data accepted.plan
    (by rw [count, accepted.multiple, size])

/-- An accepted encoder does not fail on a block of its size while its symbol ids fit. -/
theorem Accepted.encode_ok (accepted : Accepted blockSize maxPacketSize encoder)
    (counted : rq.Counted) (few : encoder.repairPacketsPerBlock.toNat ≤ 2 ^ 23) (block : Block)
    (size : block.data.length = blockSize) :
    ∃ packets, encoder.encode block = .ok packets := by
  obtain ⟨blockEncoder, planned⟩ := accepted.planned counted block size
  have symbols := accepted.symbolCount_lt
  obtain ⟨repairPackets, repaired⟩ := counted.repair_fits 0 encoder.repairPacketsPerBlock planned
    (by rw [size, UInt32.toNat_zero]; omega)
  exact ⟨_, BlockEncoder.encode_eq_ok.mpr
    ⟨by rw [size, accepted.size], blockEncoder, repairPackets, planned, repaired, rfl⟩⟩

/-- The packets of a block include all its source packets. -/
theorem Accepted.mem_encode (accepted : Accepted blockSize maxPacketSize encoder)
    (counted : rq.Counted) {block : Block} {packets : List rq.EncodingPacket}
    (encoded : encoder.encode block = .ok packets) :
    ∃ blockEncoder,
      rq.withEncodingPlan block.id encoder.config block.data encoder.encodingPlan =
        some blockEncoder ∧
      ∀ packet ∈ rq.sourcePackets blockEncoder, packet ∈ packets := by
  obtain ⟨size, blockEncoder, repairPackets, planned, repaired, rfl⟩ :=
    BlockEncoder.encode_eq_ok.mp encoded
  refine ⟨blockEncoder, planned, fun packet member => ?_⟩
  exact (mem_interleave (accepted.noWrap counted size planned repaired)).mpr (Or.inl member)

theorem Accepted.length_encode (accepted : Accepted blockSize maxPacketSize encoder)
    (counted : rq.Counted) {block : Block} {packets : List rq.EncodingPacket}
    (encoded : encoder.encode block = .ok packets) :
    packets.length = blockSize / (rq.symbolSize encoder.config).toNat +
      encoder.repairPacketsPerBlock.toNat := by
  obtain ⟨size, blockEncoder, repairPackets, planned, repaired, rfl⟩ :=
    BlockEncoder.encode_eq_ok.mp encoded
  rw [length_interleave _ _ (accepted.noWrap counted size planned repaired),
    counted.length_sourcePackets planned, counted.length_repairPackets repaired, size,
    accepted.size]

end Accepted

end GarudaCodec.Core
