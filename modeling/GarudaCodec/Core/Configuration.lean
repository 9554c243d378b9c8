import GarudaCodec.Core.BlockDecoder

/-! # What the checks of a configuration let through

`get_configuration` tests divisibility and `BlockEncoder::new` converts the number of symbols to
`u16`.  The conversion is the only check of that number, and `u16` holds more than a source block
may have.
-/

namespace GarudaCodec.Core

open GarudaCodec.Foundation
open GarudaCodec.Core.Raptorq (alignedSize maxSourceSymbols)

variable {rq : Raptorq} {blockSize : Nat} {maxPacketSize : UInt16} {repair : UInt32}

/-- `BlockEncoder::new` calls `SourceBlockEncodingPlan::generate` for `symbolCount` symbols. -/
structure ReachesGenerate (rq : Raptorq) (blockSize : Nat) (maxPacketSize : UInt16)
    (config : rq.ObjectTransmissionInformation) (symbolCount : UInt16) : Prop where
  configured : getConfiguration rq blockSize maxPacketSize = .ok config
  symbolSize_pos : 0 < (rq.symbolSize config).toNat
  symbolCount_eq : symbolCount.toNat = blockSize / (rq.symbolSize config).toNat

theorem Accepted.reachesGenerate {encoder : BlockEncoder rq}
    (accepted : Accepted blockSize maxPacketSize encoder) :
    ∃ symbolCount, ReachesGenerate rq blockSize maxPacketSize encoder.config symbolCount ∧
      rq.generate symbolCount = some encoder.encodingPlan :=
  ⟨_, ⟨accepted.configured, accepted.symbolSize_pos,
    UInt16.toNat_ofNat_of_lt accepted.symbolCount_lt⟩, accepted.plan⟩

/-! ## Where the functions panic -/

/-- Once the checks are passed, the result is up to `generate`. -/
theorem ReachesGenerate.new_eq_panic {config : rq.ObjectTransmissionInformation}
    {symbolCount : UInt16}
    (reaches : ReachesGenerate rq blockSize maxPacketSize config symbolCount) :
    BlockEncoder.new rq blockSize maxPacketSize repair = .panic ↔
      rq.generate symbolCount = none := by
  have small := symbolCount.toNat_lt
  rw [reaches.symbolCount_eq] at small
  have count : UInt16.ofNat (blockSize / (rq.symbolSize config).toNat) = symbolCount := by
    rw [← reaches.symbolCount_eq, UInt16.ofNat_toNat]
  rw [BlockEncoder.new, reaches.configured]
  simp only [Outcome.mapErr, Outcome.bind_ok]
  rw [if_neg reaches.symbolSize_pos.ne', if_pos small, count]
  cases rq.generate symbolCount with
  | none => simp [Outcome.orPanic]
  | some plan => simp

/-- A panic comes from `with_defaults`, from the division by an empty symbol or from `generate`. -/
theorem BlockEncoder.new_panics
    (panics : BlockEncoder.new rq blockSize maxPacketSize repair = .panic) :
    rq.withDefaults blockSize maxPacketSize = none ∨
      ∃ config, getConfiguration rq blockSize maxPacketSize = .ok config ∧
        ((rq.symbolSize config).toNat = 0 ∨
          ∃ symbolCount, ReachesGenerate rq blockSize maxPacketSize config symbolCount ∧
            rq.generate symbolCount = none) := by
  cases chosen : rq.withDefaults blockSize maxPacketSize with
  | none => exact Or.inl rfl
  | some config =>
    refine Or.inr ⟨config, ?_⟩
    by_cases multiple : blockSize % (rq.symbolSize config).toNat = 0
    · have configured := getConfiguration_eq_ok.mpr ⟨chosen, multiple⟩
      refine ⟨configured, ?_⟩
      by_cases empty : (rq.symbolSize config).toNat = 0
      · exact Or.inl empty
      by_cases small : blockSize / (rq.symbolSize config).toNat < 2 ^ 16
      · have reaches : ReachesGenerate rq blockSize maxPacketSize config
            (.ofNat (blockSize / (rq.symbolSize config).toNat)) :=
          ⟨configured, Nat.pos_of_ne_zero empty, UInt16.toNat_ofNat_of_lt small⟩
        exact Or.inr ⟨_, reaches, reaches.new_eq_panic.mp panics⟩
      -- the remaining cases are errors
      · rw [BlockEncoder.new, configured] at panics
        simp only [Outcome.mapErr, Outcome.bind_ok] at panics
        rw [if_neg empty, if_neg small] at panics
        cases panics
    · simp [BlockEncoder.new, getConfiguration, chosen, multiple, Outcome.mapErr] at panics

/-- Only `BlockEncoder::new` can make `infer_packet_size` panic. -/
theorem inferPacketSize_panics (counted : rq.Counted)
    (panics : inferPacketSize rq blockSize maxPacketSize = .panic) :
    BlockEncoder.new rq blockSize maxPacketSize 1 = .panic := by
  rw [inferPacketSize] at panics
  split at panics
  next => cases panics
  next created => exact created
  next encoder created =>
    obtain ⟨accepted, oneRepair⟩ := BlockEncoder.new_eq_ok.mp created
    obtain ⟨packets, encodes⟩ := accepted.encode_ok counted (by rw [oneRepair]; decide)
      ⟨1, List.replicate blockSize 0⟩ List.length_replicate
    simp only [encodes] at panics
    split at panics
    next => cases panics
    next => cases panics

/-! ## What the checks promise -/

/-- Neither function panics for these sizes: a block has a number of symbols that `generate` can
    plan for, and `with_encoding_plan` is called with the plan for just that number. -/
structure ChecksSuffice (rq : Raptorq) (blockSize : Nat) (maxPacketSize : UInt16) : Prop where
  new_returns : ∀ repair, BlockEncoder.new rq blockSize maxPacketSize repair ≠ .panic
  infer_returns : inferPacketSize rq blockSize maxPacketSize ≠ .panic
  generates : ∀ config symbolCount,
    ReachesGenerate rq blockSize maxPacketSize config symbolCount →
    1 ≤ symbolCount.toNat ∧ symbolCount.toNat ≤ maxSourceSymbols ∧
      symbolCount.toNat * (rq.symbolSize config).toNat = blockSize
  plans : ∀ repair encoder, BlockEncoder.new rq blockSize maxPacketSize repair = .ok encoder →
    ∃ symbolCount, ReachesGenerate rq blockSize maxPacketSize encoder.config symbolCount ∧
      rq.generate symbolCount = some encoder.encodingPlan ∧
      ∀ block : Block, block.data.length = encoder.blockSize →
        block.data.length = symbolCount.toNat * (rq.symbolSize encoder.config).toNat ∧
        ∃ blockEncoder, rq.withEncodingPlan block.id encoder.config block.data
          encoder.encodingPlan = some blockEncoder

/-- The block is a multiple of the symbol size, of more symbols than a source block may have but
    not of more than `u16` holds. -/
def Unplannable (blockSize : Nat) (maxPacketSize : UInt16) : Prop :=
  alignedSize maxPacketSize ∣ blockSize ∧
    maxSourceSymbols < blockSize / alignedSize maxPacketSize ∧
    blockSize / alignedSize maxPacketSize < 2 ^ 16

theorem ReachesGenerate.multiple {config : rq.ObjectTransmissionInformation}
    {symbolCount : UInt16}
    (reaches : ReachesGenerate rq blockSize maxPacketSize config symbolCount) :
    symbolCount.toNat * (rq.symbolSize config).toNat = blockSize := by
  rw [reaches.symbolCount_eq, blockSize_of_configured reaches.configured]

theorem Unplannable.reachesGenerate (unplannable : Unplannable blockSize maxPacketSize)
    (rounds : rq.Rounds) (large : 64 ≤ maxPacketSize.toNat)
    {config : rq.ObjectTransmissionInformation}
    (chosen : rq.withDefaults blockSize maxPacketSize = some config) :
    ∃ symbolCount, ReachesGenerate rq blockSize maxPacketSize config symbolCount ∧
      maxSourceSymbols < symbolCount.toNat := by
  obtain ⟨divides, many, small⟩ := unplannable
  rw [← rounds large chosen] at divides many small
  have value := UInt16.toNat_ofNat_of_lt small
  have positive : 0 < (rq.symbolSize config).toNat := by
    apply Nat.pos_of_ne_zero
    intro empty
    simp [empty] at many
  exact ⟨_, ⟨getConfiguration_eq_ok.mpr ⟨chosen, Nat.mod_eq_zero_of_dvd divides⟩, positive, value⟩,
    by rwa [value]⟩

theorem ReachesGenerate.unplannable (rounds : rq.Rounds) (large : 64 ≤ maxPacketSize.toNat)
    {config : rq.ObjectTransmissionInformation} {symbolCount : UInt16}
    (reaches : ReachesGenerate rq blockSize maxPacketSize config symbolCount)
    (many : maxSourceSymbols < symbolCount.toNat) : Unplannable blockSize maxPacketSize := by
  have small := symbolCount.toNat_lt
  have rounded := rounds large (getConfiguration_eq_ok.mp reaches.configured).1
  rw [reaches.symbolCount_eq, rounded] at many small
  refine ⟨⟨symbolCount.toNat, ?_⟩, many, small⟩
  rw [← rounded, Nat.mul_comm, reaches.multiple]

theorem alignedSize_pos (large : 64 ≤ maxPacketSize.toNat) : 0 < alignedSize maxPacketSize := by
  have remainder := Nat.mod_lt maxPacketSize.toNat (show 0 < 8 by decide)
  rw [alignedSize]
  omega

/-- The symbol counts that reach `generate` are those of source blocks. -/
theorem ReachesGenerate.bounds (rounds : rq.Rounds) (notEmpty : 1 ≤ blockSize)
    (large : 64 ≤ maxPacketSize.toNat) (plannable : ¬Unplannable blockSize maxPacketSize)
    {config : rq.ObjectTransmissionInformation} {symbolCount : UInt16}
    (reaches : ReachesGenerate rq blockSize maxPacketSize config symbolCount) :
    1 ≤ symbolCount.toNat ∧ symbolCount.toNat ≤ maxSourceSymbols ∧
      symbolCount.toNat * (rq.symbolSize config).toNat = blockSize := by
  have whole := reaches.multiple
  refine ⟨Nat.pos_of_mul_pos_right (whole ▸ notEmpty), ?_, whole⟩
  by_contra many
  exact plannable (reaches.unplannable rounds large (Nat.lt_of_not_le many))

theorem BlockEncoder.new_ne_panic (rounds : rq.Rounds) (plans : rq.Plans)
    (notEmpty : 1 ≤ blockSize) (large : 64 ≤ maxPacketSize.toNat)
    {config : rq.ObjectTransmissionInformation}
    (chosen : rq.withDefaults blockSize maxPacketSize = some config)
    (plannable : ¬Unplannable blockSize maxPacketSize) :
    BlockEncoder.new rq blockSize maxPacketSize repair ≠ .panic := by
  intro panics
  rcases BlockEncoder.new_panics panics with none | ⟨config, configured, empty | unplanned⟩
  · simp [none] at chosen
  · rw [rounds large (getConfiguration_eq_ok.mp configured).1] at empty
    exact absurd empty (alignedSize_pos large).ne'
  · obtain ⟨symbolCount, reaches, noPlan⟩ := unplanned
    obtain ⟨positive, few, -⟩ := reaches.bounds rounds notEmpty large plannable
    obtain ⟨plan, planned⟩ := (plans symbolCount positive).mpr few
    simp [planned] at noPlan

/-- The checks suffice exactly if `raptorq` has a configuration for the two sizes and the number of
    symbols is not one of those that only `u16` has room for. -/
theorem checks_suffice_iff (counted : rq.Counted) (rounds : rq.Rounds) (plans : rq.Plans)
    (notEmpty : 1 ≤ blockSize) (large : 64 ≤ maxPacketSize.toNat) :
    ChecksSuffice rq blockSize maxPacketSize ↔
      (∃ config, rq.withDefaults blockSize maxPacketSize = some config) ∧
        ¬Unplannable blockSize maxPacketSize := by
  constructor
  · intro suffice
    cases chosen : rq.withDefaults blockSize maxPacketSize with
    | none =>
      refine absurd ?_ (suffice.new_returns 0)
      simp [BlockEncoder.new, getConfiguration, chosen, Outcome.orPanic, Outcome.mapErr]
    | some config =>
      refine ⟨⟨config, rfl⟩, fun unplannable => ?_⟩
      obtain ⟨symbolCount, reaches, many⟩ := unplannable.reachesGenerate rounds large chosen
      have few := (suffice.generates config symbolCount reaches).2.1
      omega
  · rintro ⟨⟨config, chosen⟩, plannable⟩
    have returns : ∀ repair, BlockEncoder.new rq blockSize maxPacketSize repair ≠ .panic :=
      fun _ => BlockEncoder.new_ne_panic rounds plans notEmpty large chosen plannable
    exact
      { new_returns := returns
        infer_returns := fun panics => returns 1 (inferPacketSize_panics counted panics)
        generates := fun _ _ reaches => reaches.bounds rounds notEmpty large plannable
        plans := by
          intro repair encoder created
          have accepted := (BlockEncoder.new_eq_ok.mp created).1
          obtain ⟨symbolCount, reaches, planned⟩ := accepted.reachesGenerate
          refine ⟨symbolCount, reaches, planned, fun block size => ?_⟩
          rw [accepted.size] at size
          exact ⟨by rw [size, reaches.multiple], accepted.planned counted block size⟩ }

/-- The default sizes are fine. -/
theorem checks_suffice_iff_systematic : ChecksSuffice systematicCodec 287232 1500 := by
  have chosen : systematicCodec.withDefaults 287232 1500 = some 1496 := rfl
  exact (checks_suffice_iff Systematic.counted Systematic.rounds Systematic.plans (by decide)
    (by decide)).mpr ⟨⟨_, chosen⟩, fun unplannable => absurd unplannable.2.1 (by decide)⟩

/-- The smallest symbols for a block of 60000 of them: the checks are passed, and `generate`
    panics. -/
theorem checks_do_not_suffice :
    ReachesGenerate systematicCodec 3840000 64 64 60000 ∧
      BlockEncoder.new systematicCodec 3840000 64 0 = .panic ∧
      inferPacketSize systematicCodec 3840000 64 = .panic ∧
      ¬ChecksSuffice systematicCodec 3840000 64 := by
  have panics : BlockEncoder.new systematicCodec 3840000 64 0 = .panic := rfl
  exact ⟨⟨rfl, by decide, rfl⟩, panics, rfl, fun suffice => suffice.new_returns 0 panics⟩

end GarudaCodec.Core
