import GarudaCodec.Core.Decoder

/-! # Which packet completes a block

A decoder says nothing about where its blocks come from.  `attributed` puts every block that
`decode_stream` sends at the position of the packet that completed it.
-/

namespace GarudaCodec.Core

variable {rq : Raptorq}

/-- A decoded block at the position of the block that was sent. -/
def Sourced.decoded (block : Sourced Block) : Sourced (List UInt8) :=
  ⟨block.origin, block.item.data⟩

namespace BlockDecoder

/-- What `decode_stream` sends, every block at the position of the packet that completed it. -/
def attributed (decoder : BlockDecoder rq) :
    List (Sourced rq.EncodingPacket) → List (Sourced (List UInt8))
  | [] => []
  | packet :: input =>
    (decoder.decode packet.item).2.toList.map (Sourced.mk packet.origin) ++
      (decoder.decode packet.item).1.attributed input

variable {decoder : BlockDecoder rq} {packets : List (Sourced rq.EncodingPacket)}

theorem map_item_attributed (decoder : BlockDecoder rq)
    (packets : List (Sourced rq.EncodingPacket)) :
    (decoder.attributed packets).map Sourced.item =
      (decoder.decodeStream (packets.map Sourced.item)).2 := by
  induction packets generalizing decoder with
  | nil => rfl
  | cons packet packets inductionHypothesis =>
    simp [attributed, decodeStream, inductionHypothesis, Function.comp_def]

theorem length_attributed (decoder : BlockDecoder rq)
    (packets : List (Sourced rq.EncodingPacket)) :
    (decoder.attributed packets).length =
      (decoder.decodeStream (packets.map Sourced.item)).2.length := by
  rw [← map_item_attributed, List.length_map]

theorem attributed_append (decoder : BlockDecoder rq)
    (front back : List (Sourced rq.EncodingPacket)) :
    decoder.attributed (front ++ back) = decoder.attributed front ++
      (decoder.decodeStream (front.map Sourced.item)).1.attributed back := by
  induction front generalizing decoder with
  | nil => rfl
  | cons packet front inductionHypothesis =>
    simp [attributed, decodeStream, inductionHypothesis]

theorem attributed_prefix (decoder : BlockDecoder rq) {front : List (Sourced rq.EncodingPacket)}
    (isPrefix : front <+: packets) : decoder.attributed front <+: decoder.attributed packets := by
  obtain ⟨back, rfl⟩ := isPrefix
  rw [attributed_append]
  exact List.prefix_append _ _

theorem attributed_of_origin {position : Nat}
    (same : ∀ packet ∈ packets, packet.origin = position) :
    decoder.attributed packets =
      (decoder.decodeStream (packets.map Sourced.item)).2.map (Sourced.mk position) := by
  induction packets generalizing decoder with
  | nil => rfl
  | cons packet packets inductionHypothesis =>
    rw [List.forall_mem_cons] at same
    simp [attributed, decodeStream, inductionHypothesis same.2, same.1]

theorem exists_origin {block : Sourced (List UInt8)} (member : block ∈ decoder.attributed packets) :
    ∃ packet ∈ packets, block.origin = packet.origin := by
  induction packets generalizing decoder with
  | nil => cases member
  | cons packet packets inductionHypothesis =>
    cases List.mem_append.mp member with
    | inl first =>
      obtain ⟨data, -, rfl⟩ := List.mem_map.mp first
      exact ⟨packet, List.mem_cons_self, rfl⟩
    | inr later =>
      obtain ⟨other, inPackets, same⟩ := inductionHypothesis later
      exact ⟨other, List.mem_cons_of_mem _ inPackets, same⟩

/-- Blocks whose packets come one after another and whose numbers keep changing are decoded on their
    own. -/
theorem attributed_flatMap {blocks : List (Sourced Block)}
    {own : Sourced Block → List (Sourced rq.EncodingPacket)}
    (nonempty : ∀ block ∈ blocks, own block ≠ [])
    (numbers : ∀ block ∈ blocks, ∀ packet ∈ own block,
      rq.sourceBlockNumber packet.item = block.item.id)
    (origins : ∀ block ∈ blocks, ∀ packet ∈ own block, packet.origin = block.origin)
    (distinct : blocks.IsChain fun left right => left.item.id ≠ right.item.id)
    (fresh : ∀ first ∈ blocks.head?, decoder.currentBlockId ≠ some first.item.id) :
    decoder.attributed (blocks.flatMap own) = blocks.flatMap fun block =>
      (decodeRun decoder.config decoder.blockSize ((own block).map Sourced.item)).toList.map
        (Sourced.mk block.origin) := by
  induction blocks generalizing decoder with
  | nil => rfl
  | cons block blocks inductionHypothesis =>
    rw [List.forall_mem_cons] at nonempty numbers origins
    rw [List.isChain_cons] at distinct
    rw [List.flatMap_cons, List.flatMap_cons, attributed_append, attributed_of_origin origins.1]
    have isFresh : decoder.currentBlockId ≠ some block.item.id := fresh block rfl
    cases isOwn : own block with
    | nil => exact absurd isOwn nonempty.1
    | cons head run =>
      have ofBlock := numbers.1
      rw [isOwn, List.forall_mem_cons] at ofBlock
      rw [List.map_cons]
      have sameId : ∀ packet ∈ run.map Sourced.item,
          rq.sourceBlockNumber packet = rq.sourceBlockNumber head.item := by
        intro packet member
        obtain ⟨sourced, inRun, rfl⟩ := List.mem_map.mp member
        rw [ofBlock.1, ofBlock.2 sourced inRun]
      obtain ⟨sent, current, config, blockSize⟩ :=
        decodeStream_run (ofBlock.1 ▸ isFresh) sameId
      rw [sent, inductionHypothesis nonempty.2 numbers.2 origins.2 distinct.2, config, blockSize]
      intro first isFirst
      rw [current, ofBlock.1]
      simpa using distinct.1 first isFirst

end BlockDecoder

end GarudaCodec.Core
