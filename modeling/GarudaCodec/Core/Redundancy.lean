import GarudaCodec.Core.SystematicCodec
import GarudaCodec.Core.BlockEncoder

/-! # The requested redundancy

`compute_repair_packets_per_block` turns a percentage into a number of repair packets, and every
block is then encoded with that many.  The percentage is taken of the source symbols in `u32`, so
the result is the requested share only while that product fits.
-/

namespace GarudaCodec.Core

open GarudaCodec.Foundation
open GarudaCodec.Core.Vector (interleave_perm)

variable {rq : Raptorq} {blockSize : Nat} {maxPacketSize : UInt16} {encoder : BlockEncoder rq}

/-! ## The number of repair packets -/

/-- The requested share of the source symbols, rounded up. -/
def requestedRepair (symbolCount : Nat) (redundancyFactor : UInt32) : Nat :=
  (symbolCount * redundancyFactor.toNat + 99) / 100

/-- Rounding up is rounding down and adding one for a remainder. -/
theorem div_ceil_eq (dividend : Nat) {divisor : Nat} (positive : 0 < divisor) :
    (dividend + divisor - 1) / divisor =
      dividend / divisor + if 0 < dividend % divisor then 1 else 0 := by
  have parts := Nat.div_add_mod dividend divisor
  have below := Nat.mod_lt dividend positive
  generalize dividend / divisor = quotient at parts ⊢
  generalize dividend % divisor = remainder at parts below ⊢
  split
  next remains =>
    have sum : dividend + divisor - 1 = (remainder - 1) + divisor * (quotient + 1) := by
      rw [Nat.mul_add]
      omega
    rw [sum, Nat.add_mul_div_left _ _ positive, Nat.div_eq_of_lt (by omega), Nat.zero_add]
  next divides =>
    have sum : dividend + divisor - 1 = (divisor - 1) + divisor * quotient := by omega
    rw [sum, Nat.add_mul_div_left _ _ positive, Nat.div_eq_of_lt (by omega), Nat.zero_add,
      Nat.add_zero]

theorem toNat_divCeil (dividend : UInt32) {divisor : UInt32} (positive : 0 < divisor.toNat) :
    (divCeil dividend divisor).toNat =
      (dividend.toNat + divisor.toNat - 1) / divisor.toNat := by
  have bound := dividend.toNat_lt
  have below := Nat.mod_lt dividend.toNat positive
  have remainder : 0 < dividend % divisor ↔ 0 < dividend.toNat % divisor.toNat := by
    rw [UInt32.lt_iff_toNat_lt, UInt32.toNat_mod, UInt32.toNat_zero]
  rw [div_ceil_eq _ positive, divCeil]
  simp only [remainder]
  split
  next remains =>
    -- with a remainder the divisor is at least 2, so the quotient has room for the increment
    have room : dividend.toNat / divisor.toNat < 2 ^ 31 :=
      Nat.div_lt_of_lt_mul (by omega)
    rw [UInt32.toNat_add, UInt32.toNat_div, UInt32.toNat_one, Nat.mod_eq_of_lt (by omega)]
  next => rw [UInt32.toNat_div, Nat.add_zero]

/-- In `u32` the result is the requested share exactly if the product fits. -/
theorem toNat_divCeil_mul (numSourceSymbols redundancyFactor : UInt32) :
    (divCeil (numSourceSymbols * redundancyFactor) 100).toNat =
        requestedRepair numSourceSymbols.toNat redundancyFactor ↔
      numSourceSymbols.toNat * redundancyFactor.toNat < 2 ^ 32 := by
  rw [toNat_divCeil _ (by decide), UInt32.toNat_mul, requestedRepair]
  simp only [UInt32.reduceToNat]
  omega

theorem Accepted.computeRepairPacketsPerBlock_eq
    (accepted : Accepted blockSize maxPacketSize encoder) (overflowChecks : Bool)
    (redundancyFactor : UInt32) :
    computeRepairPacketsPerBlock overflowChecks rq blockSize maxPacketSize redundancyFactor =
      (Outcome.orPanic (mulU32 overflowChecks (UInt32.ofNat encoder.symbolCount)
        redundancyFactor) >>= fun product => .ok (divCeil product 100)) := by
  have few := accepted.symbolCount_small
  rw [BlockEncoder.symbolCount, accepted.size] at few ⊢
  rw [computeRepairPacketsPerBlock, accepted.configured]
  simp only [Outcome.mapErr, Outcome.bind_ok]
  rw [if_neg accepted.symbolSize_pos.ne', if_pos (by omega)]

/-- For an accepted configuration the function panics or returns a number, and either goes wrong
    exactly if the product does not fit. -/
theorem Accepted.computeRepairPacketsPerBlock_cases
    (accepted : Accepted blockSize maxPacketSize encoder) (overflowChecks : Bool)
    (redundancyFactor : UInt32) :
    (computeRepairPacketsPerBlock overflowChecks rq blockSize maxPacketSize redundancyFactor =
        .panic ∧ 2 ^ 32 ≤ encoder.symbolCount * redundancyFactor.toNat) ∨
      ∃ repair, computeRepairPacketsPerBlock overflowChecks rq blockSize maxPacketSize
          redundancyFactor = .ok repair ∧
        (repair.toNat = requestedRepair encoder.symbolCount redundancyFactor ↔
          encoder.symbolCount * redundancyFactor.toNat < 2 ^ 32) := by
  have few := accepted.symbolCount_small
  have count : (UInt32.ofNat encoder.symbolCount).toNat = encoder.symbolCount :=
    UInt32.toNat_ofNat_of_lt (by unfold UInt32.size; omega)
  have share := toNat_divCeil_mul (UInt32.ofNat encoder.symbolCount) redundancyFactor
  rw [count] at share
  rw [accepted.computeRepairPacketsPerBlock_eq, mulU32, count]
  split
  next overflow => exact Or.inl ⟨rfl, overflow.2⟩
  next => exact Or.inr ⟨_, rfl, share⟩

/-! ## The packets of a block -/

/-- Encoding a block succeeds exactly if there are ids for all its symbols. -/
theorem Accepted.encode_iff {limit : Nat} (counted : rq.Counted) (numbered : rq.Numbered limit)
    (accepted : Accepted blockSize maxPacketSize encoder) {block : Block}
    (size : block.data.length = blockSize) :
    (∃ packets, encoder.encode block = .ok packets) ↔
      encoder.symbolCount + encoder.repairPacketsPerBlock.toNat ≤ limit := by
  obtain ⟨blockEncoder, planned⟩ := accepted.planned counted block size
  have symbols : encoder.symbolCount =
      block.data.length / (rq.symbolSize encoder.config).toNat := by
    rw [BlockEncoder.symbolCount, accepted.size, size]
  rw [symbols, ← numbered.repair_iff encoder.repairPacketsPerBlock planned]
  constructor
  · rintro ⟨packets, encoded⟩
    obtain ⟨-, other, repairPackets, otherPlanned, repaired, -⟩ :=
      BlockEncoder.encode_eq_ok.mp encoded
    cases planned.symm.trans otherPlanned
    exact ⟨repairPackets, repaired⟩
  · rintro ⟨repairPackets, repaired⟩
    exact ⟨_, BlockEncoder.encode_eq_ok.mpr
      ⟨by rw [size, accepted.size], blockEncoder, repairPackets, planned, repaired, rfl⟩⟩

theorem range_append_range' (count more : Nat) :
    List.range count ++ List.range' count more = List.range (count + more) := by
  rw [List.range_eq_range', List.range_eq_range', ← List.range'_append_1, Nat.zero_add]

/-- No two packets of a block have the same symbol id. -/
theorem Accepted.encode_nodup {limit : Nat} (counted : rq.Counted) (numbered : rq.Numbered limit)
    (accepted : Accepted blockSize maxPacketSize encoder) {block : Block}
    {packets : List rq.EncodingPacket} (encoded : encoder.encode block = .ok packets) :
    (packets.map rq.encodingSymbolId).Nodup := by
  obtain ⟨size, blockEncoder, repairPackets, planned, repaired, rfl⟩ :=
    BlockEncoder.encode_eq_ok.mp encoded
  have fits := (numbered.repair_iff _ planned).mp ⟨_, repaired⟩
  have small := numbered.limit_le
  have ids := (interleave_perm _ _ (accepted.noWrap counted size planned repaired)).map
    rq.encodingSymbolId
  rw [List.map_append, numbered.source_ids planned, numbered.repair_ids planned repaired,
    ← List.map_append, range_append_range'] at ids
  rw [ids.nodup_iff]
  -- all ids are below 2 ^ 32, where numbers and `u32` values are the same
  apply List.Nodup.map_on _ List.nodup_range
  intro left inLeft right inRight same
  rw [List.mem_range] at inLeft inRight
  have leftValue : (UInt32.ofNat left).toNat = left :=
    UInt32.toNat_ofNat_of_lt (by unfold UInt32.size; omega)
  have rightValue : (UInt32.ofNat right).toNat = right :=
    UInt32.toNat_ofNat_of_lt (by unfold UInt32.size; omega)
  rw [← leftValue, same, rightValue]

/-- While there are ids for all its symbols, a block is encoded with as many packets as it has
    source symbols and repair packets. -/
theorem Accepted.encode_complete {limit : Nat} (framed : rq.Framed) (counted : rq.Counted)
    (numbered : rq.Numbered limit) (accepted : Accepted blockSize maxPacketSize encoder)
    (fits : encoder.symbolCount + encoder.repairPacketsPerBlock.toNat ≤ limit) {block : Block}
    (size : block.data.length = blockSize) :
    ∃ packets, encoder.encode block = .ok packets ∧
      packets.length = encoder.symbolCount + encoder.repairPacketsPerBlock.toNat ∧
      (∀ packet ∈ packets, rq.sourceBlockNumber packet = block.id) ∧
      (packets.map rq.encodingSymbolId).Nodup := by
  obtain ⟨packets, encoded⟩ := (accepted.encode_iff counted numbered size).mpr fits
  refine ⟨packets, encoded, ?_, ?_, accepted.encode_nodup counted numbered encoded⟩
  · rw [accepted.length_encode counted encoded, BlockEncoder.symbolCount, accepted.size]
  · intro packet member
    exact framed.source_block_number (packetOf_of_mem_encode encoded packet member)

theorem Accepted.symbolCount_eq {other : BlockEncoder rq}
    (accepted : Accepted blockSize maxPacketSize encoder)
    (otherAccepted : Accepted blockSize maxPacketSize other) :
    other.symbolCount = encoder.symbolCount := by
  rw [BlockEncoder.symbolCount, BlockEncoder.symbolCount, otherAccepted.size, accepted.size,
    otherAccepted.config_eq accepted.configured]

/-! ## What was requested and what is sent -/

/-- `compute_repair_packets_per_block` does not panic and returns the requested share, rounded up;
    every block is encoded with that many repair packets, and its packets differ in their ids. -/
structure RedundancySent (overflowChecks : Bool) (rq : Raptorq) (blockSize : Nat)
    (maxPacketSize : UInt16) (symbolCount : Nat) (redundancyFactor : UInt32) : Prop where
  noPanic : computeRepairPacketsPerBlock overflowChecks rq blockSize maxPacketSize
    redundancyFactor ≠ .panic
  share : ∀ repair, computeRepairPacketsPerBlock overflowChecks rq blockSize maxPacketSize
      redundancyFactor = .ok repair →
    repair.toNat = requestedRepair symbolCount redundancyFactor
  sent : ∀ repair, computeRepairPacketsPerBlock overflowChecks rq blockSize maxPacketSize
      redundancyFactor = .ok repair →
    ∀ encoder, BlockEncoder.new rq blockSize maxPacketSize repair = .ok encoder →
    ∀ block : Block, block.data.length = blockSize →
    ∃ packets, encoder.encode block = .ok packets ∧
      packets.length = symbolCount + repair.toNat ∧
      (∀ packet ∈ packets, rq.sourceBlockNumber packet = block.id) ∧
      (packets.map rq.encodingSymbolId).Nodup

/-- The requested redundancy is sent exactly if the product with the percentage fits into `u32`
    and there are ids for all symbols of a block. -/
theorem redundancy_sent_iff (framed : rq.Framed) (counted : rq.Counted) {limit : Nat}
    (numbered : rq.Numbered limit) (overflowChecks : Bool) {someRepair : UInt32}
    (created : BlockEncoder.new rq blockSize maxPacketSize someRepair = .ok encoder)
    (redundancyFactor : UInt32) :
    RedundancySent overflowChecks rq blockSize maxPacketSize encoder.symbolCount redundancyFactor ↔
      encoder.symbolCount * redundancyFactor.toNat < 2 ^ 32 ∧
        encoder.symbolCount + requestedRepair encoder.symbolCount redundancyFactor ≤ limit := by
  have accepted := (BlockEncoder.new_eq_ok.mp created).1
  constructor
  · intro sent
    rcases accepted.computeRepairPacketsPerBlock_cases overflowChecks redundancyFactor with
      ⟨panics, -⟩ | ⟨repair, computed, exact⟩
    · exact absurd panics sent.noPanic
    · have share := sent.share repair computed
      refine ⟨exact.mp share, ?_⟩
      -- a block of zeros is encoded as any other
      have same := accepted.with_repair repair
      obtain ⟨packets, encoded, -⟩ := sent.sent repair computed _
        (BlockEncoder.new_eq_ok.mpr ⟨same, rfl⟩)
        ⟨0, List.replicate blockSize 0⟩ List.length_replicate
      have fits := (same.encode_iff counted numbered List.length_replicate).mp ⟨packets, encoded⟩
      rwa [← share]
  · rintro ⟨fits, ids⟩
    rcases accepted.computeRepairPacketsPerBlock_cases overflowChecks redundancyFactor with
      ⟨-, large⟩ | ⟨repair, computed, exact⟩
    · omega
    · have share := exact.mpr fits
      refine ⟨by simp [computed], ?_, ?_⟩
      · intro other otherComputed
        cases computed.symm.trans otherComputed
        exact share
      · intro other otherComputed otherEncoder otherCreated block size
        cases computed.symm.trans otherComputed
        obtain ⟨otherAccepted, rfl⟩ := BlockEncoder.new_eq_ok.mp otherCreated
        have symbols := accepted.symbolCount_eq otherAccepted
        rw [← symbols]
        exact otherAccepted.encode_complete framed counted numbered
          (by rwa [symbols, share]) size

/-- A redundancy of 20 percent with the default sizes, in a build with overflow checks. -/
theorem redundancy_sent_iff_systematic :
    RedundancySent true systematicCodec 287232 1500 192 20 := by
  have created : BlockEncoder.new systematicCodec 287232 1500 0 = .ok ⟨287232, 0, 1496, 192⟩ := rfl
  exact (redundancy_sent_iff Systematic.framed Systematic.counted Systematic.numbered true created
    20).mpr (by decide)

/-- The product wraps to 128: two repair packets are sent instead of 42949675. -/
theorem redundancy_lost :
    BlockEncoder.new systematicCodec 287232 1500 2 = .ok ⟨287232, 2, 1496, 192⟩ ∧
      computeRepairPacketsPerBlock false systematicCodec 287232 1500 22369622 = .ok 2 ∧
      requestedRepair 192 22369622 = 42949675 ∧
      ¬RedundancySent false systematicCodec 287232 1500 192 22369622 := by
  have computed : computeRepairPacketsPerBlock false systematicCodec 287232 1500 22369622 =
      .ok 2 := rfl
  refine ⟨rfl, computed, rfl, fun sent => ?_⟩
  have share := sent.share 2 computed
  simp [requestedRepair] at share

end GarudaCodec.Core
