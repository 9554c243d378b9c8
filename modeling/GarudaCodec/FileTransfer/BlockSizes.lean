import GarudaCodec.FileTransfer.EndToEnd
import GarudaCodec.FileTransfer.Interrupted

/-! # Block sizes that differ

`send` and `receive` have to use the same block size, and nothing makes the codec between them use
it as well.  With one worker the blocks of the codec stay in order, so that it is a stream that
carries all complete blocks (`written_of_one_worker`).  The receiver then finds the sender's
datagrams in it whatever the codec's block size is, but for those at the end of which a part is
left in the encoder (`transfer_across_block_sizes`).
-/

namespace GarudaCodec.Core

open GarudaCodec.Foundation
open GarudaCodec.Foundation.Runs
open GarudaCodec.Foundation.Readers

variable {rq : Raptorq} {setup : Setup rq} {s : Link rq setup.workers}

/-- With one worker and no losses, the decoder writes the blocks in the order of the input. -/
theorem Link.written_of_one_worker (framed : rq.Framed) (counted : rq.Counted)
    (complete : rq.Complete) (one : setup.workers = 1) {session : Session}
    (quiet : Quiet Io.onError session.input)
    (reachable : Link.Reachable setup (Link.start setup [session]) s) (drained : s.Drained)
    (lossless : s.delivered = s.wire) : s.decoder.written = setup.chunks session := by
  have allQuiet : ∀ only ∈ [session], Quiet Io.onError only.input := by simpa using quiet
  have connected := (Link.Connected.start setup [session]).reachable framed reachable
  have served := connected.drained framed drained allQuiet
  have sent : s.dispatched = setup.blocks 0 [session] := served.sent
  have positive : 0 < setup.blockSize := served.blockSize_pos (List.cons_ne_nil _ _)
  have decoded := fun block (member : block ∈ s.dispatched) =>
    connected.decoded_of_lossless framed counted complete served positive lossless member
  have decodable : ∀ block ∈ s.dispatched, s.decodable setup block = true := by
    intro block member
    rw [Link.decodable, decoded block member]
    rfl
  have survive : ∀ block ∈ s.dispatched, s.survivors block.origin ≠ [] := by
    intro block member empty
    have nothing := decoded block member
    rw [empty] at nothing
    cases nothing
  obtain ⟨order, written, lanes⟩ := connected.exists_order_drained framed
    (fun block member _ => decoded block member)
    (Link.Connected.separated_of_decodable decodable) drained.decoder
  -- the only queue holds everything
  have onlyKey : ∀ block : Sourced Block, setup.queue block.item.id = ⟨0, setup.workers_pos⟩ := by
    intro block
    have inside := (setup.queue block.item.id).isLt
    exact Fin.ext (by omega)
  have distinct := Link.distinct_blocks (by omega) session ⟨0, setup.workers_pos⟩
  have inOrder := lanes ⟨0, setup.workers_pos⟩
  rw [Link.decodedAt, Link.Connected.alive_of_survivors survive, Link.blocksAt, sent,
    firsts_of_distinct distinct] at inOrder
  simp only [onlyKey, decide_true, List.filter_true] at inOrder
  rw [← sent, List.filter_eq_self.mpr decodable, sent] at inOrder
  rw [written, inOrder, Link.map_data_blocks, List.flatMap_singleton]

end GarudaCodec.Core

namespace GarudaCodec.FileTransfer

open GarudaCodec.Foundation
open GarudaCodec.Foundation.Chunks
open GarudaCodec.Foundation.Readers
open GarudaCodec.Core

variable {rq : Raptorq} {setup : Setup rq} {fs : FileSystem} {outputPath : Path}
  {blockSize codecSize : Nat}

/-- A sender whose stream is cut after the last complete block of the codec. -/
def Attempt.throughCodec (source : SourceFile) (blockSize codecSize : Nat) : Attempt :=
  ⟨source, some ((source.send blockSize).2.written.length / codecSize * codecSize)⟩

theorem send_throughCodec (source : SourceFile) (blockSize codecSize : Nat) :
    ((Attempt.throughCodec source blockSize codecSize).send blockSize).2.written =
      (chunksExact codecSize (source.send blockSize).2.written).flatten := by
  rw [chunksExact, flatten_chunks]
  exact (breaksOff_send source.fileId source.filePath (.ok source.fileLength) (.ok source.file)
    blockSize _).front

/-- What `send` writes is datagrams and nothing else. -/
theorem SourceFile.dvd_length_written (source : SourceFile) (large : datagramHeaderLen < blockSize)
    (small : blockSize - datagramHeaderLen < UInt32.size) :
    blockSize ∣ (source.send blockSize).2.written.length := by
  have well := source.send_ok large small
  rw [source.send_eq large] at well ⊢
  obtain ⟨datagrams, written, sent⟩ := sendLoop_sent source.readable
    (by rw [List.length_replicate]; omega)
    (by rw [List.length_replicate]; omega : _ = blockSize) well
  rw [written, List.nil_append, List.length_flatten,
    List.map_congr_left sent.length_mem, List.map_const', List.sum_replicate]
  exact Dvd.intro_left _ rfl

theorem length_throughCodec (source : SourceFile) (blockSize codecSize : Nat) :
    ((Attempt.throughCodec source blockSize codecSize).datagrams blockSize).length =
      (source.send blockSize).2.written.length / codecSize * codecSize / blockSize := by
  rw [Attempt.datagrams, length_chunksExact, send_throughCodec, chunksExact, flatten_chunks,
    List.length_take, Nat.min_eq_left (Nat.div_mul_le_self ..)]

/-- All datagrams get through the codec if nothing is left in the encoder. -/
theorem datagrams_throughCodec_eq_iff (source : SourceFile) (large : datagramHeaderLen < blockSize)
    (small : blockSize - datagramHeaderLen < UInt32.size) :
    (Attempt.throughCodec source blockSize codecSize).datagrams blockSize =
        source.datagrams blockSize ↔
      codecSize ∣ (source.send blockSize).2.written.length := by
  have positive := Nat.zero_lt_of_lt large
  obtain ⟨count, length⟩ := source.dvd_length_written large small
  constructor
  · intro same
    have counts := congrArg List.length same
    rw [length_throughCodec, SourceFile.datagrams, length_chunksExact, length,
      Nat.mul_div_cancel_left _ positive] at counts
    have most := Nat.div_mul_le_self (blockSize * count / codecSize * codecSize) blockSize
    rw [counts, Nat.mul_comm count] at most
    have exact := Nat.le_antisymm (Nat.div_mul_le_self ..) most
    exact length ▸ Dvd.intro_left _ exact
  · intro divides
    have everything := send_throughCodec source blockSize codecSize
    rw [chunksExact, flatten_chunks, Nat.div_mul_cancel divides, List.take_length] at everything
    rw [Attempt.datagrams, everything, SourceFile.datagrams]

/-- A codec of one worker that loses nothing, whatever its block size is: the receiver ends up with
    the front of the file that is in the sender's complete datagrams among the codec's complete
    blocks, over what was there, and with the whole file exactly if the codec's blocks come out
    even. -/
theorem transfer_across_block_sizes (framed : rq.Framed) (counted : rq.Counted)
    (complete : rq.Complete) (one : setup.workers = 1) (large : datagramHeaderLen < blockSize)
    (small : blockSize - datagramHeaderLen < UInt32.size) {source : SourceFile}
    {session : Session} (quiet : Quiet Io.onError session.input)
    (feeds : contents session.input = (source.send blockSize).2.written)
    {s : Link rq setup.workers} (reachable : Link.Reachable setup (Link.start setup [session]) s)
    (drained : Link.Drained s) (lossless : s.delivered = s.wire) {stream : Reader}
    (forwarded : Forwarded s.decoder.written stream)
    (accepts : fs.Accepts outputPath (receivedOver blockSize [.ok stream])) (disk : Disk) :
    (∃ front, front <+: source.content ∧
      Sent source.fileId source.fileName source.fileLength blockSize 0 front
        ((source.datagrams blockSize).take ((source.send blockSize).2.written.length /
          setup.blockSize * setup.blockSize / blockSize)) ∧
      (front = source.content ↔ setup.blockSize ∣ (source.send blockSize).2.written.length) ∧
      disk.after (receive fs (.ok ()) (.ok [.ok stream]) outputPath blockSize).1
          (Path.components (source.destination outputPath)) =
        if front = [] then disk (Path.components (source.destination outputPath))
        else some (front ++
          ((disk (Path.components (source.destination outputPath))).getD []).drop
            front.length)) ∧
      ∀ place, place ≠ Path.components (source.destination outputPath) →
        disk.after (receive fs (.ok ()) (.ok [.ok stream]) outputPath blockSize).1 place =
          disk place := by
  have delivers : List.Forall₂ (Delivers blockSize)
      [.throughCodec source blockSize setup.blockSize] [.ok stream] := by
    refine .cons ⟨stream, rfl, forwarded.quiet, ?_⟩ .nil
    rw [forwarded.content, Link.written_of_one_worker framed counted complete one quiet reachable
      drained lossless, Setup.chunks, feeds, send_throughCodec]
  have attemptsAt : AttemptsAt fs outputPath blockSize source.fileName source.content
      [.throughCodec source blockSize setup.blockSize] :=
    { large, small
      same := by simp [Attempt.throughCodec]
      accepts := receivedOver_attempts (Nat.zero_lt_of_lt large) delivers ▸ accepts }
  rw [attemptsAt.writes delivers]
  refine ⟨?_, fun place other => attemptsAt.after_other disk other⟩
  obtain ⟨back, whole⟩ : _ <+: source.datagrams blockSize :=
    Attempt.datagrams_prefix (.throughCodec source blockSize setup.blockSize) blockSize
  have sent := source.sent large (source.send_ok large small)
  rw [← whole] at sent
  obtain ⟨front, rest, content, through, later⟩ := sent.split
  have isFront : front <+: source.content := content ▸ List.prefix_append front rest
  refine ⟨front, isFront, ?_, ?_, attemptsAt.after_front disk isFront fun idx => ?_⟩
  · rw [← length_throughCodec, ← whole, List.take_left]
    exact through
  · rw [← datagrams_throughCodec_eq_iff source large small, content, List.self_eq_append_right,
      later.eq_nil_iff, ← whole, List.self_eq_append_right]
  · have getsThrough : (Attempt.throughCodec source blockSize setup.blockSize).GetsThrough blockSize
      front := through
    rw [List.flatMap_singleton]
    exact getsThrough.hasByte (Nat.lt_of_le_of_lt isFront.length_le source.bounded) idx

/-- A sender and a receiver with blocks of twice the codec's size. -/
theorem transfer_across_block_sizes_sample :
    ∃ s, Link.Reachable (transferSetup Nat.one_pos)
        (Link.start _ [Link.wholeSession 9 (fileA.send 592).2.written]) s ∧ Link.Drained s ∧
      Disk.after (fun _ => some (List.replicate 14 7)) (receive permissive (.ok ())
        (.ok [.ok (bytewise s.decoder.written.flatten)]) [] 592).1
          (Path.components (fileA.destination [])) =
            some [1, 2, 3, 4, 5, 6, 7, 8, 9, 10, 11, 12, 7, 7] := by
  have large : datagramHeaderLen < 592 := by decide
  have small : 592 - datagramHeaderLen < UInt32.size := by decide
  have nonempty : (fileA.send 592).2.written ≠ [] := by
    intro empty
    have none : fileA.datagrams 592 = [] := by rw [SourceFile.datagrams, empty]; rfl
    have noContent := (fileA.sent large (fileA.send_ok large small)).eq_nil_iff.mpr none
    exact absurd noContent (by decide)
  have quiet : ∀ session ∈ [Link.wholeSession 9 (fileA.send 592).2.written],
      Quiet Io.onError session.input := by
    simpa using Link.quiet_wholeSession 9 nonempty
  have feeds : contents (Link.wholeSession 9 (fileA.send 592).2.written).input =
      (fileA.send 592).2.written := by
    simp [Link.wholeSession]
  obtain ⟨s, reachable, drained, kept⟩ := exists_drained_transfer Nat.one_pos quiet fun _ => true
  obtain ⟨⟨front, -, -, whole, after⟩, -⟩ := transfer_across_block_sizes Systematic.framed
    Systematic.counted Systematic.complete rfl large small (quiet _ List.mem_cons_self)
    feeds reachable drained (by simpa using kept)
    ⟨quiet_bytewise _, contents_bytewise _⟩ (permissive_accepts [] _)
    fun _ => some (List.replicate 14 7)
  have divides : 296 ∣ (fileA.send 592).2.written.length :=
    Nat.dvd_trans (by decide) (fileA.dvd_length_written large small)
  rw [whole.mpr divides] at after
  exact ⟨s, reachable, drained, after⟩

end GarudaCodec.FileTransfer
