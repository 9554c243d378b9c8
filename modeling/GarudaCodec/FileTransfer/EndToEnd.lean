import GarudaCodec.Core.QueueOrder
import GarudaCodec.Core.ShortSessions
import GarudaCodec.FileTransfer.Receiving

/-! # From the sender's file to the receiver's

`send` writes datagrams of the block size of the codec, so each datagram is one block of the encoder
and comes out of the decoder as a whole or not at all.  What the codec guarantees about blocks is
thus what the receiver's directory gets: a file with true bytes and holes (`transfer_patches`,
`transfer_of_decodable`), or all files as they are when nothing is lost (`transfer_everything`).
-/

namespace GarudaCodec.FileTransfer

open GarudaCodec.Foundation
open GarudaCodec.Foundation.Chunks
open GarudaCodec.Foundation.Readers
open GarudaCodec.Foundation.PositionalWrites
open GarudaCodec.Core

variable {rq : Raptorq} {setup : Setup rq} {fs : FileSystem} {outputPath : Path}

/-- The encoder's input is what `send` writes for this file. -/
def Feeds (setup : Setup rq) (source : SourceFile) (session : Session) : Prop :=
  contents session.input = (source.send setup.blockSize).2.written

theorem Feeds.chunks {source : SourceFile} {session : Session}
    (feeds : Feeds setup source session) :
    setup.chunks session = source.datagrams setup.blockSize := by
  rw [Setup.chunks, feeds, SourceFile.datagrams]

/-- The decoder's output on its way to the receiver, over one connection. -/
structure Forwarded (blocks : List (List UInt8)) (stream : Reader) : Prop where
  quiet : Quiet onReadError stream
  content : contents stream = blocks.flatten

theorem Forwarded.receivedOver {blocks : List (List UInt8)} {stream : Reader} {blockSize : Nat}
    (forwarded : Forwarded blocks stream) (positive : 0 < blockSize)
    (sizes : ∀ block ∈ blocks, block.length = blockSize) :
    receivedOver blockSize [.ok stream] = blocks := by
  simp [FileTransfer.receivedOver, served,
    received_run forwarded.quiet positive sizes forwarded.content]

/-- What the receiver writes when it gets blocks that are datagrams of some files. -/
theorem Forwarded.writes {blocks : List (List UInt8)} {stream : Reader} {blockSize : Nat}
    {sources : List SourceFile} (forwarded : Forwarded blocks stream)
    (inParts : InParts fs outputPath blockSize sources blocks) :
    (receive fs (.ok ()) (.ok [.ok stream]) outputPath blockSize).1 =
      Transferred.writes fs outputPath blocks := by
  have positive := Nat.zero_lt_of_lt inParts.large
  have sizes : ∀ block ∈ blocks, block.length = blockSize := by
    intro block member
    obtain ⟨source, -, sent⟩ := inParts.genuine block member
    exact (source.sent inParts.large (source.send_ok inParts.large inParts.small)).length_mem
      block sent
  have read := forwarded.receivedOver positive sizes
  rw [← read]
  exact receiveLoop_writes positive (read ▸ inParts.goOn)

/-- What the receiver makes of them. -/
theorem Forwarded.patches {blocks : List (List UInt8)} {stream : Reader} {blockSize : Nat}
    {sources : List SourceFile} (forwarded : Forwarded blocks stream)
    (inParts : InParts fs outputPath blockSize sources blocks) (disk : Disk) :
    (∀ source ∈ sources, Patched 0 source.content (Arrived source blockSize blocks)
      ((disk (Path.components (source.destination outputPath))).getD [])
      ((disk.after (receive fs (.ok ()) (.ok [.ok stream]) outputPath blockSize).1
        (Path.components (source.destination outputPath))).getD [])) ∧
      ∀ place, (∀ source ∈ sources, place ≠ Path.components (source.destination outputPath)) →
        disk.after (receive fs (.ok ()) (.ok [.ok stream]) outputPath blockSize).1 place =
          disk place := by
  rw [forwarded.writes inParts]
  exact ⟨fun source member => inParts.patched disk member,
    fun place other => inParts.after_other disk other⟩

def transferEncoder : BlockEncoder systematicCodec := ⟨296, 1, 296, 1⟩

theorem transferEncoder_created :
    BlockEncoder.new systematicCodec 296 296 1 = .ok transferEncoder := rfl

/-- Blocks of one symbol, which have room for four bytes of a file, and one repair packet each. -/
def transferSetup {workers : Nat} (positive : 0 < workers) : Setup systematicCodec where
  blockSize := 296
  maxPacketSize := 296
  repairPacketsPerBlock := 1
  workers := workers
  workers_pos := positive
  encoder := transferEncoder
  decoder := ⟨296, 296, none, systematicCodec.newDecoder 0 296 296, false, 0, 0, []⟩
  packetSize := 300
  encoder_created := transferEncoder_created
  decoder_created := rfl
  packetSize_inferred := (BlockEncoder.new_eq_ok.mp transferEncoder_created).1.inferPacketSize_ok
    Systematic.framed Systematic.counted

theorem large_transferSetup {workers : Nat} (positive : 0 < workers) :
    datagramHeaderLen < (transferSetup positive).blockSize :=
  show datagramHeaderLen < 296 by decide

theorem small_transferSetup {workers : Nat} (positive : 0 < workers) :
    (transferSetup positive).blockSize - datagramHeaderLen < UInt32.size :=
  show 296 - datagramHeaderLen < UInt32.size by decide

/-- The session in which a file is sent. -/
def sessionOf (initialBlockId : UInt8) (source : SourceFile) : Session :=
  Link.wholeSession initialBlockId (source.send 296).2.written

theorem feeds_sessionOf {workers : Nat} (positive : 0 < workers) (initialBlockId : UInt8)
    (source : SourceFile) :
    Feeds (transferSetup positive) source (sessionOf initialBlockId source) := by
  simp [Feeds, sessionOf, Link.wholeSession, transferSetup]

theorem quiet_sessionOf (initialBlockId : UInt8) {source : SourceFile}
    (sent : source.datagrams 296 ≠ []) :
    Quiet Io.onError (sessionOf initialBlockId source).input := by
  apply Link.quiet_wholeSession
  intro empty
  exact sent (by rw [SourceFile.datagrams, empty]; rfl)

theorem sent_fileA : fileA.datagrams 296 ≠ [] := by
  rw [datagrams_fileA]
  exact List.cons_ne_nil _ _

theorem transfer_encodes {workers : Nat} (positive : 0 < workers) (block : Block)
    (size : block.data.length = 296) :
    ∃ packets, (transferSetup positive).encoder.encode block = .ok packets :=
  (transferSetup positive).accepted.encode_ok Systematic.counted
    (show (1 : UInt32).toNat ≤ 2 ^ 23 by decide) block size

theorem exists_drained_transfer {workers : Nat} (positive : 0 < workers) {sessions : List Session}
    (quiet : ∀ session ∈ sessions, Quiet Io.onError session.input)
    (keep : Sourced Systematic.Packet → Bool) :
    ∃ s, Link.Reachable (transferSetup positive) (Link.start (transferSetup positive) sessions) s ∧
      Link.Drained s ∧ s.delivered = s.wire.filter keep := by
  exact Link.exists_drained _ Systematic.framed (show 0 < 296 by decide)
    (transfer_encodes positive) quiet keep

/-- The decoder's output reaches the receiver block by block. -/
theorem forwarded_deliver {blocks : List (List UInt8)} (nonempty : ∀ block ∈ blocks, block ≠ []) :
    Forwarded blocks (deliver blocks) :=
  ⟨quiet_deliver nonempty, contents_deliver blocks⟩

/-- The blocks in which the first file is sent. -/
def blocksA : List (Sourced Block) :=
  [⟨0, ⟨9, sampleDatagram "a" 12 0 [1, 2, 3, 4]⟩⟩, ⟨1, ⟨10, sampleDatagram "a" 12 4 [5, 6, 7, 8]⟩⟩,
    ⟨2, ⟨11, sampleDatagram "a" 12 8 [9, 10, 11, 12]⟩⟩]

theorem blocks_fileA {workers : Nat} (positive : 0 < workers) :
    (transferSetup positive).blocks 0 [sessionOf 9 fileA] = blocksA := by
  have datagrams : fileA.datagrams (transferSetup positive).blockSize = _ := datagrams_fileA
  rw [Setup.blocks, Setup.blocks, List.append_nil, (feeds_sessionOf positive 9 fileA).chunks,
    datagrams]
  rfl

/-- The channel loses the symbol of the second block and hands on its repair packet. -/
def loseSecond (packet : Sourced Systematic.Packet) : Bool :=
  packet.origin ≠ 1 ∨ packet.item.encodingSymbolId = 1

theorem decodable_loseSecond :
    blocksA.filter (fun block => (systematicCodec.firstDecoded
        (systematicCodec.newDecoder block.item.id transferEncoder.config 296)
        (((emitted transferEncoder block).filter loseSecond).map Sourced.item)).isSome) =
      blocksA.filter fun block => block.origin ≠ 1 := by
  decide +kernel

/-- A file of at most 256 datagrams, over a link with any number of workers that may drop any
    packets: at any time, the receiver holds true bytes of the file where datagrams have come
    through, each of which comes through at most once, and everything else is as it was. -/
theorem transfer_patches (framed : rq.Framed) (sound : rq.Sound)
    (large : datagramHeaderLen < setup.blockSize)
    (small : setup.blockSize - datagramHeaderLen < UInt32.size) {source : SourceFile}
    (plain : PlainName (asBytes (transmittedName source.fileName)))
    (short : (source.datagrams setup.blockSize).length ≤ 256) {session : Session}
    (quiet : Quiet Io.onError session.input) (feeds : Feeds setup source session)
    {s : Link rq setup.workers}
    (reachable : Link.Reachable setup (Link.start setup [session]) s)
    {stream : Reader} (forwarded : Forwarded s.decoder.written stream)
    (accepts : fs.Accepts outputPath s.decoder.written) (disk : Disk) :
    s.decoder.written.Subperm (source.datagrams setup.blockSize) ∧
      Patched 0 source.content (Arrived source setup.blockSize s.decoder.written)
        ((disk (Path.components (source.destination outputPath))).getD [])
        ((disk.after (receive fs (.ok ()) (.ok [.ok stream]) outputPath setup.blockSize).1
          (Path.components (source.destination outputPath))).getD []) ∧
      ∀ place, place ≠ Path.components (source.destination outputPath) →
        disk.after (receive fs (.ok ()) (.ok [.ok stream]) outputPath setup.blockSize).1 place =
          disk place := by
  have sizePositive := Nat.zero_lt_of_lt large
  have dispatched := (Link.dispatched_blocks sizePositive quiet reachable).map
    fun block => block.item.data
  rw [Link.map_data_numbered, feeds.chunks] at dispatched
  have subperm : s.decoder.written.Subperm (source.datagrams setup.blockSize) :=
    (Link.written_subperm_of_short framed sound sizePositive quiet
      (by rw [feeds.chunks]; exact short) reachable).trans dispatched.sublist.subperm
  have inParts : InParts fs outputPath setup.blockSize [source] s.decoder.written :=
    { large, small
      plain := by simpa using plain
      distinct := List.pairwise_singleton ..
      genuine := fun datagram member => ⟨source, by simp, subperm.subset member⟩
      accepts }
  obtain ⟨patched, others⟩ := forwarded.patches inParts disk
  exact ⟨subperm, patched source (by simp), fun place other => others place (by simpa using other)⟩

/-- A file of three datagrams, for 200 workers, of which the second one does not come through. -/
theorem transfer_patches_sample :
    ∃ s, Link.Reachable (transferSetup (show 0 < 200 by decide))
        (Link.start _ [sessionOf 9 fileA]) s ∧ Link.Drained s ∧
      s.delivered = s.wire.filter loseSecond ∧
      ((Disk.after (fun _ => some [5, 6]) (receive permissive (.ok ())
        (.ok [.ok (deliver s.decoder.written)]) [] 296).1
          (Path.components (fileA.destination []))).getD []) =
            [1, 2, 3, 4, 0, 0, 0, 0, 9, 10, 11, 12] := by
  have positive : 0 < 200 := by decide
  have quiet := quiet_sessionOf 9 sent_fileA
  have feeds := feeds_sessionOf positive 9 fileA
  have short : (fileA.datagrams 296).length ≤ 256 := by
    rw [datagrams_fileA]
    decide
  obtain ⟨s, reachable, drained, kept⟩ := exists_drained_transfer positive
    (show ∀ session ∈ [sessionOf 9 fileA], Quiet Io.onError session.input by simpa using quiet)
    loseSecond
  have connected := (Link.Connected.start _ _).reachable Systematic.framed reachable
  have served := connected.drained Systematic.framed drained (by simpa using quiet)
  have dispatched : s.dispatched = _ := served.sent.trans (blocks_fileA positive)
  obtain ⟨order, isPerm, written⟩ := Link.written_of_short Systematic.framed Systematic.sound
    (show 0 < 296 by decide) quiet (by rw [feeds.chunks]; exact short) reachable drained
  have survivors := fun block (member : block ∈ s.dispatched) =>
    connected.survivors_of_keep Systematic.framed served kept member
  have decodable : s.dispatched.filter (s.decodable (transferSetup positive)) =
      blocksA.filter fun block => block.origin ≠ 1 := by
    rw [List.filter_congr fun block member => by rw [Link.decodable, survivors block member],
      dispatched]
    exact decodable_loseSecond
  have sameDatagrams : ∀ datagram, datagram ∈ s.decoder.written ↔ datagram ∈ partArrivals := by
    intro datagram
    rw [written, (isPerm.map _).mem_iff, decodable]
    simp [blocksA, partArrivals, or_comm]
  have nonempty : ∀ block ∈ s.decoder.written, block ≠ [] := by
    intro block member
    exact fileA.datagrams_nonempty (by decide) (by decide) block
      (sent_partArrivals block ((sameDatagrams block).mp member))
  obtain ⟨-, patched, -⟩ := transfer_patches Systematic.framed Systematic.sound
    (large_transferSetup positive) (small_transferSetup positive)
    (show PlainName (asBytes (transmittedName fileA.fileName)) by decide)
    (show (fileA.datagrams (transferSetup positive).blockSize).length ≤ 256 from short) quiet feeds
    reachable (forwarded_deliver nonempty) (permissive_accepts [] _) fun _ => some [5, 6]
  exact ⟨s, reachable, drained, kept,
    patched_partArrivals (arrived_partArrivals sameDatagrams) patched⟩

end GarudaCodec.FileTransfer
