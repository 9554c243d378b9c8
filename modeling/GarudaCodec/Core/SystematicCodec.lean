import Mathlib.Data.UInt
import GarudaCodec.Foundation.Chunks
import GarudaCodec.Core.Raptorq

/-! # A codec without parity

The smallest codec with the behaviour the development asks of `raptorq`: source packets carry the
block cut into symbols, repair packets carry nothing, and a decoder gives out the concatenation
of the symbols once it has received all of them.  Theorems about any codec are evaluated on it.
-/

namespace GarudaCodec.Core

open GarudaCodec.Foundation.Chunks

namespace Systematic

structure Packet where
  sourceBlockNumber : UInt8
  encodingSymbolId : UInt32
  data : List UInt8
deriving DecidableEq, Repr

structure Encoder where
  sourceBlockNumber : UInt8
  symbolSize : Nat
  block : List UInt8
deriving DecidableEq, Repr

def Encoder.symbolCount (encoder : Encoder) : Nat := encoder.block.length / encoder.symbolSize

/-- The received source symbols, with their ids, in order of arrival. -/
structure Decoder where
  symbolCount : Nat
  received : List (Nat × List UInt8)
deriving DecidableEq, Repr

def sourcePacket (encoder : Encoder) (idx : Nat) : Packet where
  sourceBlockNumber := encoder.sourceBlockNumber
  encodingSymbolId := .ofNat idx
  data := chunkAt encoder.symbolSize encoder.block idx

def repairPacket (encoder : Encoder) (idx : Nat) : Packet where
  sourceBlockNumber := encoder.sourceBlockNumber
  encodingSymbolId := .ofNat (encoder.symbolCount + idx)
  data := List.replicate encoder.symbolSize 0

/-- The 4-byte payload id, then the symbol. -/
def serialize (packet : Packet) : List UInt8 :=
  packet.sourceBlockNumber :: UInt8.ofNat (packet.encodingSymbolId.toNat / 2 ^ 16) ::
    UInt8.ofNat (packet.encodingSymbolId.toNat / 2 ^ 8) ::
    UInt8.ofNat packet.encodingSymbolId.toNat :: packet.data

def deserialize : List UInt8 → Packet
  | number :: high :: middle :: low :: data =>
    { sourceBlockNumber := number
      encodingSymbolId := .ofNat (high.toNat * 2 ^ 16 + middle.toNat * 2 ^ 8 + low.toNat)
      data }
  | _ => { sourceBlockNumber := 0, encodingSymbolId := 0, data := [] }

def accept (decoder : Decoder) (packet : Packet) : Decoder :=
  if packet.encodingSymbolId.toNat < decoder.symbolCount then
    { decoder with
      received := decoder.received ++ [(packet.encodingSymbolId.toNat, packet.data)] }
  else decoder

/-- The block, once the symbols of all ids have been received. -/
def assemble (decoder : Decoder) : Option (List UInt8) :=
  if ∀ idx ∈ List.range decoder.symbolCount, (decoder.received.lookup idx).isSome then
    some ((List.range decoder.symbolCount).flatMap fun idx =>
      (decoder.received.lookup idx).getD [])
  else none

end Systematic

open Systematic in
/-- The codec, with the symbol size as its configuration. -/
abbrev systematicCodec : Raptorq where
  ObjectTransmissionInformation := UInt16
  withDefaults transferLength maxPacketSize :=
    if transferLength ≠ 0 ∧ 8 ≤ maxPacketSize then some (maxPacketSize - maxPacketSize % 8)
    else none
  symbolSize config := config
  SourceBlockEncodingPlan := UInt16
  generate count := if count ≤ 56403 then some count else none
  EncodingPacket := Packet
  sourceBlockNumber := Packet.sourceBlockNumber
  encodingSymbolId := Packet.encodingSymbolId
  data := Packet.data
  serialize := serialize
  deserialize := deserialize
  SourceBlockEncoder := Encoder
  withEncodingPlan id config block plan :=
    if block.length = plan.toNat * config.toNat then
      some { sourceBlockNumber := id, symbolSize := config.toNat, block }
    else none
  sourcePackets encoder := (List.range encoder.symbolCount).map (sourcePacket encoder)
  repairPackets encoder start count :=
    if encoder.symbolCount + start.toNat + count.toNat ≤ 2 ^ 24 then
      some ((List.range count.toNat).map fun idx => repairPacket encoder (start.toNat + idx))
    else none
  SourceBlockDecoder := Decoder
  newDecoder _ config blockSize := { symbolCount := blockSize / config.toNat, received := [] }
  decode decoder packets := (assemble (packets.foldl accept decoder), packets.foldl accept decoder)

namespace Systematic

/-! ## The packets of a block -/

/-- What the packets of a block have in common. -/
structure OfBlock (id : UInt8) (config : UInt16) (block : List UInt8) (packet : Packet) :
    Prop where
  sourceBlockNumber : packet.sourceBlockNumber = id
  encodingSymbolId : packet.encodingSymbolId.toNat < 2 ^ 24
  length : packet.data.length = config.toNat
  symbol : packet.encodingSymbolId.toNat < block.length / config.toNat →
    packet.data = chunkAt config.toNat block packet.encodingSymbolId.toNat

theorem withEncodingPlan_eq_some {id : UInt8} {config plan : UInt16} {block : List UInt8}
    {encoder : Encoder}
    (planned : systematicCodec.withEncodingPlan id config block plan = some encoder) :
    block.length = plan.toNat * config.toNat ∧ encoder = ⟨id, config.toNat, block⟩ := by
  simp only [systematicCodec] at planned
  split at planned
  next size =>
    cases planned
    exact ⟨size, rfl⟩
  next => cases planned

theorem symbolCount_lt {config plan : UInt16} {block : List UInt8}
    (size : block.length = plan.toNat * config.toNat) : block.length / config.toNat < 2 ^ 16 := by
  have bound : plan.toNat < 2 ^ 16 := plan.toNat_lt
  rw [size]
  exact Nat.lt_of_le_of_lt (Nat.div_le_of_le_mul (by rw [Nat.mul_comm])) bound

theorem ofBlock_sourcePacket {id : UInt8} {config plan : UInt16} {block : List UInt8} {idx : Nat}
    (size : block.length = plan.toNat * config.toNat) (inside : idx < block.length / config.toNat) :
    OfBlock id config block (sourcePacket ⟨id, config.toNat, block⟩ idx) := by
  have bound := symbolCount_lt size
  have idxEqual : (UInt32.ofNat idx).toNat = idx :=
    UInt32.toNat_ofNat_of_lt (by unfold UInt32.size; omega)
  exact
    { sourceBlockNumber := rfl
      encodingSymbolId := by simp only [sourcePacket, idxEqual]; omega
      length := length_chunkAt inside
      symbol := fun _ => by simp only [sourcePacket, idxEqual] }

theorem ofBlock_repairPacket {id : UInt8} {config : UInt16} {block : List UInt8} {idx : Nat}
    (fits : block.length / config.toNat + idx < 2 ^ 24) :
    OfBlock id config block (repairPacket ⟨id, config.toNat, block⟩ idx) := by
  have idxEqual : (UInt32.ofNat (block.length / config.toNat + idx)).toNat =
      block.length / config.toNat + idx := UInt32.toNat_ofNat_of_lt (by unfold UInt32.size; omega)
  exact
    { sourceBlockNumber := rfl
      encodingSymbolId := by simpa only [repairPacket, Encoder.symbolCount, idxEqual] using fits
      length := by simp [repairPacket]
      symbol := fun source => by
        simp only [repairPacket, Encoder.symbolCount, idxEqual] at source
        omega }

theorem ofBlock_of_packetOf {id : UInt8} {config : UInt16} {block : List UInt8} {packet : Packet}
    (packetOf : systematicCodec.PacketOf id config block packet) :
    OfBlock id config block packet := by
  obtain ⟨plan, encoder, planned, emits⟩ := packetOf
  obtain ⟨size, rfl⟩ := withEncodingPlan_eq_some planned
  cases emits with
  | inl source =>
    obtain ⟨idx, inside, rfl⟩ := List.mem_map.mp source
    exact ofBlock_sourcePacket size (List.mem_range.mp inside)
  | inr repair =>
    obtain ⟨start, count, packets, repaired, member⟩ := repair
    simp only [systematicCodec] at repaired
    split at repaired
    next fits =>
      cases repaired
      obtain ⟨idx, inside, rfl⟩ := List.mem_map.mp member
      have below := List.mem_range.mp inside
      simp only [Encoder.symbolCount] at fits
      exact ofBlock_repairPacket (by omega)
    next => cases repaired

theorem framed : systematicCodec.Framed where
  source_block_number := fun packetOf => (ofBlock_of_packetOf packetOf).sourceBlockNumber
  length_serialize := fun packetOf => by
    have length := (ofBlock_of_packetOf packetOf).length
    simp only [serialize, List.length_cons, length]
    omega
  deserialize_serialize := fun {id config block packet} packetOf => by
    have small := (ofBlock_of_packetOf packetOf).encodingSymbolId
    have digits : UInt32.ofNat ((UInt8.ofNat (packet.encodingSymbolId.toNat / 2 ^ 16)).toNat *
        2 ^ 16 + (UInt8.ofNat (packet.encodingSymbolId.toNat / 2 ^ 8)).toNat * 2 ^ 8 +
        (UInt8.ofNat packet.encodingSymbolId.toNat).toNat) = packet.encodingSymbolId := by
      simp only [UInt8.toNat_ofNat']
      rw [← UInt32.toNat_inj, UInt32.toNat_ofNat']
      omega
    simp only [systematicCodec, serialize, deserialize, digits]

theorem rejectsEmpty : systematicCodec.RejectsEmpty := fun _ => rfl

theorem counted : systematicCodec.Counted where
  plan_fits := fun {count plan} id config block generated size => by
    simp only [systematicCodec] at generated size ⊢
    split at generated
    next =>
      cases generated
      exact ⟨_, if_pos size⟩
    next => cases generated
  length_sourcePackets := fun planned => by
    obtain ⟨-, rfl⟩ := withEncodingPlan_eq_some planned
    simp [systematicCodec, Encoder.symbolCount]
  repair_fits := fun start count planned fits => by
    obtain ⟨-, rfl⟩ := withEncodingPlan_eq_some planned
    exact ⟨_, if_pos fits⟩
  length_repairPackets := fun repaired => by
    simp only [systematicCodec] at repaired
    split at repaired
    next =>
      cases repaired
      simp
    next => cases repaired

/-- Its symbol ids have 24 bits, as those of `raptorq`. -/
theorem numbered : systematicCodec.Numbered (2 ^ 24) where
  limit_le := by decide
  source_ids := fun planned => by
    obtain ⟨-, rfl⟩ := withEncodingPlan_eq_some planned
    simp [systematicCodec, sourcePacket, Encoder.symbolCount]
  repair_ids := fun planned repaired => by
    obtain ⟨-, rfl⟩ := withEncodingPlan_eq_some planned
    simp only [systematicCodec] at repaired
    split at repaired
    next =>
      cases repaired
      simp [repairPacket, Encoder.symbolCount, List.range'_eq_map_range]
    next => cases repaired
  repair_iff := fun count planned => by
    obtain ⟨-, rfl⟩ := withEncodingPlan_eq_some planned
    simp [systematicCodec, Encoder.symbolCount]

theorem rounds : systematicCodec.Rounds := by
  intro transferLength maxPacketSize config _ chosen
  simp only [systematicCodec] at chosen
  split at chosen
  next =>
    cases chosen
    have below : maxPacketSize % 8 ≤ maxPacketSize := by
      rw [UInt16.le_iff_toNat_le, UInt16.toNat_mod]
      exact Nat.mod_le _ _
    rw [UInt16.toNat_sub_of_le _ _ below, UInt16.toNat_mod]
    rfl
  next => cases chosen

theorem plans : systematicCodec.Plans := by
  intro count _
  have same : count ≤ 56403 ↔ count.toNat ≤ 56403 := by
    rw [UInt16.le_iff_toNat_le]
    rfl
  simp [systematicCodec, Raptorq.maxSourceSymbols, same]

/-! ## The decoder -/

/-- Everything received is a symbol of the block, and an id counts as received once a packet with
    it has been accepted. -/
structure Collects (config : UInt16) (block : List UInt8) (decoder : Decoder) : Prop where
  count : decoder.symbolCount = block.length / config.toNat
  symbols : ∀ entry ∈ decoder.received, entry.2 = chunkAt config.toNat block entry.1

theorem Collects.accept {config : UInt16} {block : List UInt8} {decoder : Decoder} {id : UInt8}
    {packet : Packet} (collects : Collects config block decoder)
    (ofBlock : OfBlock id config block packet) : Collects config block (accept decoder packet) := by
  rw [Systematic.accept]
  split
  next source =>
    refine ⟨collects.count, ?_⟩
    intro entry member
    cases List.mem_append.mp member with
    | inl earlier => exact collects.symbols entry earlier
    | inr last =>
      cases List.mem_singleton.mp last
      exact ofBlock.symbol (collects.count ▸ source)
  next => exact collects

theorem lookup_isSome {decoder : Decoder} {idx : Nat} :
    (decoder.received.lookup idx).isSome ↔ idx ∈ decoder.received.map Prod.fst := by
  rw [List.lookup_isSome_iff]
  simp

theorem Collects.lookup {config : UInt16} {block : List UInt8} {decoder : Decoder} {idx : Nat}
    (collects : Collects config block decoder) (received : (decoder.received.lookup idx).isSome) :
    (decoder.received.lookup idx).getD [] = chunkAt config.toNat block idx := by
  obtain ⟨symbol, found⟩ := Option.isSome_iff_exists.mp received
  obtain ⟨front, back, split, _⟩ := List.lookup_eq_some_iff.mp found
  rw [found, Option.getD_some]
  exact collects.symbols (idx, symbol) (by simp [split])

theorem Collects.assemble {config : UInt16} {block decoded : List UInt8} {decoder : Decoder}
    (collects : Collects config block decoder)
    (multiple : block.length / config.toNat * config.toNat = block.length)
    (assembled : assemble decoder = some decoded) : decoded = block := by
  rw [Systematic.assemble] at assembled
  split at assembled
  next complete =>
    cases assembled
    rw [List.flatMap_congr fun idx member => collects.lookup (complete idx member), collects.count,
      List.flatMap_def, flatten_chunks, multiple, List.take_length]
  next => cases assembled

theorem firstDecoded_cons (decoder : Decoder) (packet : Packet) (packets : List Packet) :
    systematicCodec.firstDecoded decoder (packet :: packets) =
      (assemble (accept decoder packet)).or
        (systematicCodec.firstDecoded (accept decoder packet) packets) := by
  rw [Raptorq.firstDecoded]
  simp only [List.foldl_cons, List.foldl_nil]
  cases assemble (accept decoder packet) with
  | none => rfl
  | some block => rfl

theorem Collects.start (config : UInt16) (block : List UInt8) (id : UInt8) :
    Collects config block (systematicCodec.newDecoder id config block.length) :=
  ⟨rfl, nofun⟩

theorem Collects.firstDecoded {config : UInt16} {block decoded : List UInt8} {decoder : Decoder}
    {id : UInt8} {packets : List Packet} (collects : Collects config block decoder)
    (multiple : packets ≠ [] → block.length / config.toNat * config.toNat = block.length)
    (ofBlock : ∀ packet ∈ packets, OfBlock id config block packet)
    (first : systematicCodec.firstDecoded decoder packets = some decoded) : decoded = block := by
  induction packets generalizing decoder with
  | nil => cases first
  | cons packet packets inductionHypothesis =>
    have next := collects.accept (ofBlock packet List.mem_cons_self)
    rw [firstDecoded_cons] at first
    cases assembled : Systematic.assemble (Systematic.accept decoder packet) with
    | some block' =>
      rw [assembled] at first
      cases first
      exact next.assemble (multiple (List.cons_ne_nil _ _)) assembled
    | none =>
      rw [assembled, Option.none_or] at first
      exact inductionHypothesis next (fun _ => multiple (List.cons_ne_nil _ _))
        (fun other member => ofBlock other (List.mem_cons_of_mem _ member)) first

theorem PacketOf.multiple {id : UInt8} {config : UInt16} {block : List UInt8} {packet : Packet}
    (packetOf : systematicCodec.PacketOf id config block packet) :
    block.length / config.toNat * config.toNat = block.length := by
  obtain ⟨plan, encoder, planned, _⟩ := packetOf
  obtain ⟨size, _⟩ := withEncodingPlan_eq_some planned
  exact Nat.div_mul_cancel ⟨plan.toNat, by rw [size, Nat.mul_comm]⟩

theorem sound : systematicCodec.Sound := by
  intro id config block packets decoded packetOf first
  refine (Collects.start config block id).firstDecoded ?_
    (fun packet member => ofBlock_of_packetOf (packetOf packet member)) first
  intro nonempty
  obtain ⟨packet, member⟩ := List.exists_mem_of_ne_nil packets nonempty
  exact PacketOf.multiple (packetOf packet member)

/-- The ids a decoder still lacks are gone for good once a packet with them is accepted. -/
theorem mem_received_accept {decoder : Decoder} {packet : Packet} {idx : Nat}
    (wanted : idx < decoder.symbolCount)
    (held : idx ∈ decoder.received.map Prod.fst ∨ packet.encodingSymbolId.toNat = idx) :
    idx ∈ (accept decoder packet).received.map Prod.fst := by
  rw [accept]
  split
  next source =>
    simp only [List.map_append, List.mem_append, List.map_cons, List.map_nil, List.mem_singleton]
    exact held.imp_right Eq.symm
  next repair =>
    cases held with
    | inl earlier => exact earlier
    | inr same => exact absurd (same ▸ wanted) repair

theorem accept_symbolCount (decoder : Decoder) (packet : Packet) :
    (accept decoder packet).symbolCount = decoder.symbolCount := by
  rw [accept]
  split <;> rfl

theorem assemble_isSome {decoder : Decoder}
    (all : ∀ idx < decoder.symbolCount, idx ∈ decoder.received.map Prod.fst) :
    (assemble decoder).isSome := by
  rw [assemble, if_pos]
  · rfl
  · intro idx member
    exact lookup_isSome.mpr (all idx (List.mem_range.mp member))

/-- If every id is received or among the packets to come, the decoder gives out a block. -/
theorem firstDecoded_isSome {decoder : Decoder} {packets : List Packet} (nonempty : packets ≠ [])
    (all : ∀ idx < decoder.symbolCount, idx ∈ decoder.received.map Prod.fst ∨
      ∃ packet ∈ packets, packet.encodingSymbolId.toNat = idx) :
    (systematicCodec.firstDecoded decoder packets).isSome := by
  induction packets generalizing decoder with
  | nil => exact absurd rfl nonempty
  | cons packet packets inductionHypothesis =>
    rw [firstDecoded_cons, Option.isSome_or]
    have later : ∀ idx < decoder.symbolCount,
        idx ∈ (accept decoder packet).received.map Prod.fst ∨
          ∃ other ∈ packets, other.encodingSymbolId.toNat = idx := by
      intro idx wanted
      cases all idx wanted with
      | inl earlier => exact Or.inl (mem_received_accept wanted (Or.inl earlier))
      | inr coming =>
        obtain ⟨other, member, same⟩ := coming
        cases List.mem_cons.mp member with
        | inl isHead => exact Or.inl (mem_received_accept wanted (Or.inr (isHead ▸ same)))
        | inr inTail => exact Or.inr ⟨other, inTail, same⟩
    rw [← accept_symbolCount decoder packet] at later
    cases packets with
    | nil =>
      have received : ∀ idx < (accept decoder packet).symbolCount,
          idx ∈ (accept decoder packet).received.map Prod.fst := fun idx wanted => by
        simpa using later idx wanted
      simp [assemble_isSome received]
    | cons next packets =>
      simp [inductionHypothesis (List.cons_ne_nil _ _) later]

theorem complete : systematicCodec.Complete := by
  intro id config block plan encoder packets positive planned packetOf sources
  obtain ⟨size, rfl⟩ := withEncodingPlan_eq_some planned
  have all : ∀ idx < block.length / config.toNat,
      ∃ packet ∈ packets, packet.encodingSymbolId.toNat = idx := by
    intro idx inside
    refine ⟨sourcePacket ⟨id, config.toNat, block⟩ idx, sources _ ?_, ?_⟩
    · exact List.mem_map.mpr ⟨idx, List.mem_range.mpr inside, rfl⟩
    · have bound := symbolCount_lt size
      exact UInt32.toNat_ofNat_of_lt (by unfold UInt32.size; omega)
  have symbols : 0 < block.length / config.toNat := by
    rw [size] at positive ⊢
    rw [Nat.mul_div_cancel _ (Nat.pos_of_mul_pos_left positive)]
    exact Nat.pos_of_mul_pos_right positive
  obtain ⟨first, inPackets, _⟩ := all 0 symbols
  obtain ⟨decoded, found⟩ := Option.isSome_iff_exists.mp
    (firstDecoded_isSome (List.ne_nil_of_mem inPackets) fun idx wanted => Or.inr (all idx wanted) :
      (systematicCodec.firstDecoded (systematicCodec.newDecoder id config block.length)
        packets).isSome)
  rw [found, sound packetOf found]

end Systematic

end GarudaCodec.Core
