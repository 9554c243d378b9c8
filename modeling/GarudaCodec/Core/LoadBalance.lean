import GarudaCodec.Foundation.RoundRobin
import GarudaCodec.Core.QueueOrder

/-! # How evenly the encoder's workers are loaded

The dispatcher picks a worker by the 8-bit number of the block, so the dealing starts afresh where
the number wraps.  The shares of two workers drift apart by at most one block with every wrap, and
stay together in every run exactly if the number of workers divides 256; workers beyond the 256th
never see a block.
-/

namespace GarudaCodec.Core

open GarudaCodec.Foundation
open GarudaCodec.Foundation.Chunks
open GarudaCodec.Foundation.Readers
open GarudaCodec.Foundation.RoundRobin
open GarudaCodec.Foundation.Pipeline
open GarudaCodec.Core.Io
open GarudaCodec.Core.Link (systematicSetup wholeSession quiet_wholeSession chunks_wholeSession)

variable {rq : Raptorq} {workers : Nat}

/-- How many blocks a worker has been given: those it has taken and those in its queue. -/
def load (s : EncoderState rq workers) (key : Fin workers) : Nat :=
  (s.received key ++ s.queues key).length

theorem filter_numbered (positive : 0 < workers) (position : Nat) (id : UInt8)
    (chunks : List (List UInt8)) (key : Fin workers) :
    ((numbered position id chunks).filter fun block =>
        queueOf positive block.item.id = key).length =
      dealtFrom 256 workers id.toNat key.val chunks.length := by
  have ids : ((numbered position id chunks).filter fun block =>
        queueOf positive block.item.id = key).length =
      ((blockIds id chunks.length).filter fun other => queueOf positive other = key).length := by
    rw [← map_id_numbered position, List.filter_map, List.length_map]
    rfl
  rw [ids, blockIds, List.filter_map, List.length_map, dealtFrom, Nat.count_eq_card_filter_range]
  apply congrArg List.length
  apply List.filter_congr
  intro turn _
  simp [blockId, queueOf, Fin.ext_iff]

/-- The dispatcher deals its blocks out by their numbers. -/
theorem load_eq_dealtFrom {positive : 0 < workers} {encoder : BlockEncoder rq}
    {dispatcher : BlockDispatcher} {s : EncoderState rq workers}
    (reachable : Reachable (encoderProgram rq positive)
      (.start dispatcher fun _ => encoder) s) (key : Fin workers) :
    load s key =
      dealtFrom 256 workers dispatcher.currentBlockId.toNat key.val s.sent.length := by
  have encodes := (Encodes.start _ _ _).reachable reachable
  obtain ⟨chunks, -, isSent⟩ := encodes.sent_eq
  have given : (s.sent.filter fun block => queueOf positive block.item.id = key) =
      s.received key ++ s.queues key := encodes.wired.queued key
  rw [load, ← given, isSent, filter_numbered, length_numbered]

/-- A session of two periods of blocks. -/
def twoPeriods (blockSize : Nat) : Session :=
  wholeSession 0 (List.replicate (512 * blockSize) 0)

/-- An encoder that cannot fail has a run that dispatches two periods of blocks. -/
theorem exists_twoPeriods (counted : rq.Counted) (setup : Setup rq)
    (sizePositive : 0 < setup.blockSize)
    (few : setup.encoder.repairPacketsPerBlock.toNat ≤ 2 ^ 23) (framed : rq.Framed) :
    ∃ e, Reachable (encoderProgram rq setup.workers_pos)
        (.start (setup.dispatcher 0 (twoPeriods setup.blockSize)) fun _ => setup.encoder) e ∧
      e.sent.length = 512 := by
  have quiet : Quiet onError (twoPeriods setup.blockSize).input := by
    apply quiet_wholeSession
    intro empty
    have size := congrArg List.length empty
    rw [List.length_replicate, List.length_nil] at size
    omega
  obtain ⟨e, reachable, drained⟩ := exists_drained_encoder setup sizePositive
    (fun block size => setup.accepted.encode_ok counted few block size) 0 quiet
  have all := ((Encodes.start _ _ _).reachable reachable).drained framed drained quiet
  have sent : e.sent = numbered 0 0 (setup.chunks (twoPeriods setup.blockSize)) := all.sent
  refine ⟨e, reachable, ?_⟩
  rw [sent, length_numbered, twoPeriods, chunks_wholeSession, length_chunksExact,
    List.length_replicate, Nat.mul_div_cancel _ sizePositive]

/-- At any time and whatever has failed, two workers have got numbers of blocks that differ by at
    most one more than the number of the blocks has wrapped. -/
theorem loads_drift_with_wraps (positive : 0 < workers) {encoder : BlockEncoder rq}
    {dispatcher : BlockDispatcher} {s : EncoderState rq workers}
    (reachable : Reachable (encoderProgram rq positive)
      (.start dispatcher fun _ => encoder) s) (left right : Fin workers) :
    load s left ≤ load s right +
      (dispatcher.currentBlockId.toNat + s.sent.length) / 256 + 1 ∧
      (256 ≤ left.val → load s left = 0) := by
  rw [load_eq_dealtFrom reachable, load_eq_dealtFrom reachable]
  exact ⟨dealtFrom_le left.isLt right.isLt dispatcher.currentBlockId.toNat_lt s.sent.length,
    fun beyond => dealtFrom_beyond (by simp) beyond _ _⟩

/-- The first of 300 workers gets a block in each of two periods, the last one none. -/
theorem loads_drift_with_wraps_systematic :
    ∃ e : EncoderState systematicCodec 300, e.sent.length = 512 ∧ load e 0 = 2 ∧
      load e 0 ≤ load e 299 + (0 + e.sent.length) / 256 + 1 ∧ load e 299 = 0 := by
  obtain ⟨e, reachable, count⟩ := exists_twoPeriods Systematic.counted
    (systematicSetup (show 0 < 300 by simp)) (show 0 < 16 by simp)
    (show (0 : UInt32).toNat ≤ 2 ^ 23 by simp) Systematic.framed
  have first : load e ⟨0, by decide⟩ = 2 := by
    rw [load_eq_dealtFrom reachable, count]
    decide +kernel
  have drift := loads_drift_with_wraps (show 0 < 300 by simp) reachable
  exact ⟨e, count, first, (drift (0 : Fin 300) (299 : Fin 300)).1,
    (drift (299 : Fin 300) (0 : Fin 300)).2 (by decide)⟩

/-- In every run any two workers have at any time got the same number of blocks up to one, exactly
    if the number of workers divides 256. -/
theorem evenly_loaded_iff (framed : rq.Framed) (counted : rq.Counted) (setup : Setup rq)
    (sizePositive : 0 < setup.blockSize)
    (few : setup.encoder.repairPacketsPerBlock.toNat ≤ 2 ^ 23) :
    (∀ (session : Session) (s : EncoderState rq setup.workers),
      Reachable (encoderProgram rq setup.workers_pos)
        (.start (setup.dispatcher 0 session) fun _ => setup.encoder) s →
      ∀ left right, load s left ≤ load s right + 1) ↔
      setup.workers ∣ 256 := by
  constructor
  · intro even
    by_contra partly
    obtain ⟨e, reachable, count⟩ :=
      exists_twoPeriods counted setup sizePositive few framed
    have isLast : setup.workers - 1 < setup.workers := by
      have some := setup.workers_pos
      omega
    have close := even _ e reachable ⟨0, setup.workers_pos⟩ ⟨setup.workers - 1, isLast⟩
    have uneven := dealtFrom_uneven (show 0 < 256 by simp) setup.workers_pos partly
    rw [load_eq_dealtFrom reachable, load_eq_dealtFrom reachable, count] at close
    simp only [Setup.dispatcher, twoPeriods, wholeSession, UInt8.toNat_zero, Nat.reduceMul]
      at close uneven
    omega
  · intro whole session s reachable left right
    rw [load_eq_dealtFrom reachable, load_eq_dealtFrom reachable]
    exact (dealtFrom_even_iff (by simp) setup.workers_pos).mpr whole _
      (UInt8.toNat_lt _) _ _ left.isLt _ right.isLt

/-- Three workers do not keep together. -/
theorem evenly_loaded_iff_systematic :
    ¬∀ (session : Session) (s : EncoderState systematicCodec 3),
      Reachable (encoderProgram systematicCodec (show 0 < 3 by decide))
        (.start ((systematicSetup (show 0 < 3 by decide)).dispatcher 0 session)
          fun _ => (systematicSetup (show 0 < 3 by decide)).encoder) s →
      ∀ left right, load s left ≤ load s right + 1 := by
  intro even
  have divides : 3 ∣ 256 := (evenly_loaded_iff Systematic.framed Systematic.counted
    (systematicSetup (show 0 < 3 by decide)) (show 0 < 16 by simp)
    (show (0 : UInt32).toNat ≤ 2 ^ 23 by simp)).mp even
  simp at divides

end GarudaCodec.Core
