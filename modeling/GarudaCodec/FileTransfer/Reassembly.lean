import GarudaCodec.FileTransfer.Names
import GarudaCodec.FileTransfer.Send
import GarudaCodec.FileTransfer.Receive

/-! # Files after a transfer

The datagrams of some files arrive in any order and any number of times, each at least once.
Every write then lies within the file it is for and every byte is covered, so what is left of each
destination is known: `Transferred.after` says that it is the file, followed by what its old
content had behind the file's end.
-/

namespace GarudaCodec.FileTransfer

open GarudaCodec.Foundation
open GarudaCodec.Foundation.Readers
open GarudaCodec.Foundation.PositionalWrites (Within Covers Store)

/-- Where the receiver writes the file. -/
def SourceFile.destination (source : SourceFile) (outputPath : Path) : Path :=
  Path.join outputPath (asBytes (transmittedName source.fileName))

/-- The file system performs the writes that these datagrams ask for. -/
def FileSystem.Accepts (fs : FileSystem) (outputPath : Path) (arrivals : List (List UInt8)) :
    Prop :=
  ∀ datagram ∈ arrivals, ∀ header, DatagramHeader.deserialize datagram = .ok header →
    fs.openError (requested outputPath datagram header).path = none ∧
      fs.writeError (requested outputPath datagram header) = none

/-- The stream consists of datagrams of these files, each file's datagrams all among them, and none
    of the writes they ask for fails. -/
structure Transferred (fs : FileSystem) (outputPath : Path) (blockSize : Nat)
    (sources : List SourceFile) (arrivals : List (List UInt8)) (stream : Reader) : Prop where
  large : datagramHeaderLen < blockSize
  well : ∀ source ∈ sources, (source.send blockSize).1 = .ok ()
  plain : ∀ source ∈ sources, PlainName (asBytes (transmittedName source.fileName))
  distinct : sources.Pairwise fun source other =>
    transmittedName source.fileName ≠ transmittedName other.fileName
  nonempty : ∀ source ∈ sources, source.content ≠ []
  genuine : ∀ datagram ∈ arrivals, ∃ source ∈ sources, datagram ∈ source.datagrams blockSize
  complete : ∀ source ∈ sources, ∀ datagram ∈ source.datagrams blockSize, datagram ∈ arrivals
  quiet : Quiet onReadError stream
  content : contents stream = arrivals.flatten
  accepts : fs.Accepts outputPath arrivals

/-- The payload stands where the header says. -/
theorem Carries.field_eq {header : DatagramHeader} {payload datagram : List UInt8}
    (carries : Carries header payload datagram) :
    field datagram datagramHeaderLen header.payloadLength.toNat = payload := by
  have carried := carries.carried
  rw [slice] at carried
  split at carried
  · rw [Nat.add_sub_cancel_left] at carried
    exact Option.some.inj carried
  · cases carried

namespace SourceFile

variable {fs : FileSystem} {outputPath : Path} {blockSize : Nat} {source : SourceFile}
  {datagram : List UInt8} {arrivals : List (List UInt8)}

/-- What the receiver does with one datagram of a file. -/
theorem handleDatagram_eq (large : datagramHeaderLen < blockSize)
    (well : (source.send blockSize).1 = .ok ()) (member : datagram ∈ source.datagrams blockSize)
    (accepts : fs.Accepts outputPath arrivals) (arrived : datagram ∈ arrivals) :
    ∃ header payload, Carries header payload datagram ∧ header.fileLength = source.fileLength ∧
      Within source.content (header.chunkOffset.toNat, payload) ∧
      handleDatagram fs outputPath datagram =
        ([⟨source.destination outputPath, header.chunkOffset, payload⟩], .ok ()) := by
  obtain ⟨header, payload, carries, fileName, fileLength, within⟩ :=
    (source.sent large well).piece (List.drop_zero ..) source.bounded datagram member
  refine ⟨header, payload, carries, fileLength, within, ?_⟩
  have request : requested outputPath datagram header =
      ⟨source.destination outputPath, header.chunkOffset, payload⟩ := by
    rw [requested, fileName, carries.field_eq, destination]
  obtain ⟨opens, written⟩ := accepts datagram arrived header carries.reads
  rw [request] at opens written
  have path : Path.join outputPath (asBytes header.fileName) = source.destination outputPath := by
    rw [fileName, destination]
  simp only [handleDatagram, carries.reads, carries.carried, path, opens, written]

end SourceFile

namespace Transferred

variable {fs : FileSystem} {outputPath : Path} {blockSize : Nat} {sources : List SourceFile}
  {arrivals : List (List UInt8)} {stream : Reader} {disk : Disk}

/-- The writes, in order of arrival. -/
def writes (fs : FileSystem) (outputPath : Path) (arrivals : List (List UInt8)) : List FileWrite :=
  arrivals.flatMap fun datagram => (handleDatagram fs outputPath datagram).1

theorem processStream_eq
    (transferred : Transferred fs outputPath blockSize sources arrivals stream) :
    processStream fs outputPath blockSize stream =
      (writes fs outputPath arrivals, some (.err .unexpectedEof)) := by
  have positive : 0 < blockSize := Nat.lt_of_le_of_lt (Nat.zero_le _) transferred.large
  apply processStream_run transferred.quiet positive _ transferred.content
  · intro datagram member
    obtain ⟨source, inSources, sent⟩ := transferred.genuine datagram member
    obtain ⟨header, payload, -, -, -, handled⟩ := SourceFile.handleDatagram_eq transferred.large
      (transferred.well source inSources) sent transferred.accepts member
    rw [handled]
  · intro datagram member
    obtain ⟨source, inSources, sent⟩ := transferred.genuine datagram member
    exact (source.sent transferred.large (transferred.well source inSources)).length_mem
      datagram sent

/-- Every write puts a part of a file at its place in the file's destination. -/
theorem mem_writes (transferred : Transferred fs outputPath blockSize sources arrivals stream)
    {write : FileWrite} (member : write ∈ writes fs outputPath arrivals) :
    ∃ source ∈ sources, write.path = source.destination outputPath ∧
      Within source.content (write.offset.toNat, write.payload) := by
  obtain ⟨datagram, arrived, made⟩ := List.mem_flatMap.mp member
  obtain ⟨source, inSources, sent⟩ := transferred.genuine datagram arrived
  obtain ⟨header, payload, -, -, within, handled⟩ := SourceFile.handleDatagram_eq transferred.large
    (transferred.well source inSources) sent transferred.accepts arrived
  rw [handled] at made
  cases List.mem_singleton.mp made
  exact ⟨source, inSources, rfl, within⟩

theorem covers (transferred : Transferred fs outputPath blockSize sources arrivals stream)
    {source : SourceFile} (member : source ∈ sources) {idx : Nat}
    (inside : idx < source.content.length) :
    ∃ write ∈ writes fs outputPath arrivals, write.path = source.destination outputPath ∧
      Covers (write.offset.toNat, write.payload) idx := by
  have well := transferred.well source member
  have bounded : 0 + source.content.length < UInt64.size := by
    rw [Nat.zero_add]
    exact source.bounded
  obtain ⟨datagram, sent, header, payload, carries, covered⟩ :=
    (source.sent transferred.large well).covered bounded idx (Nat.zero_le _)
      (by rw [Nat.zero_add]; exact inside)
  -- the receiver reads from the datagram what the sender has put there
  have arrived := transferred.complete source member datagram sent
  obtain ⟨other, carried, otherCarries, -, -, handled⟩ := SourceFile.handleDatagram_eq
    transferred.large well sent transferred.accepts arrived
  obtain ⟨rfl, rfl⟩ := carries.unique otherCarries
  have made : ⟨source.destination outputPath, header.chunkOffset, payload⟩ ∈
      writes fs outputPath arrivals := by
    apply List.mem_flatMap.mpr
    refine ⟨datagram, arrived, ?_⟩
    rw [handled]
    exact List.mem_singleton_self _
  exact ⟨_, made, rfl, covered⟩

/-- Two files of a transfer have different destinations. -/
theorem destination_inj (transferred : Transferred fs outputPath blockSize sources arrivals stream)
    {source other : SourceFile} (member : source ∈ sources) (otherMember : other ∈ sources)
    (same : Path.components (source.destination outputPath) =
      Path.components (other.destination outputPath)) : source = other := by
  have names : transmittedName source.fileName = transmittedName other.fileName :=
    asBytes_injective (Path.components_join_inj (transferred.plain source member)
      (transferred.plain other otherMember) same)
  have symmetric : Std.Symm fun source other : SourceFile =>
      transmittedName source.fileName ≠ transmittedName other.fileName :=
    ⟨fun _ _ differ => differ.symm⟩
  by_contra differ
  exact transferred.distinct.forall member otherMember differ names

/-- What each destination holds in the end. -/
theorem after (transferred : Transferred fs outputPath blockSize sources arrivals stream)
    {source : SourceFile} (member : source ∈ sources) :
    disk.after (processStream fs outputPath blockSize stream).1
        (Path.components (source.destination outputPath)) =
      some (source.content ++
        ((disk (Path.components (source.destination outputPath))).getD []).drop
          source.content.length) := by
  rw [transferred.processStream_eq, Disk.after]
  apply Store.putAll_covered _ _ (transferred.nonempty source member)
  · intro write put
    obtain ⟨made, inWrites, same⟩ := List.mem_map.mp put
    obtain ⟨other, otherMember, path, within⟩ := transferred.mem_writes inWrites
    obtain ⟨place, rfl⟩ := Prod.mk.inj same
    rw [path] at place
    -- only the datagrams of this file are written to this place
    rw [transferred.destination_inj member otherMember place.symm]
    exact within
  · intro idx inside
    obtain ⟨write, made, path, covered⟩ := transferred.covers member inside
    refine ⟨(write.offset.toNat, write.payload), List.mem_map.mpr ⟨write, made, ?_⟩, covered⟩
    rw [FileWrite.onDisk, path]

/-- No other file is touched. -/
theorem after_other (transferred : Transferred fs outputPath blockSize sources arrivals stream)
    {place : List Component}
    (other : ∀ source ∈ sources, place ≠ Path.components (source.destination outputPath)) :
    disk.after (processStream fs outputPath blockSize stream).1 place = disk place := by
  rw [transferred.processStream_eq]
  apply Disk.after_other
  intro write made
  obtain ⟨source, member, path, -⟩ := transferred.mem_writes made
  exact path ▸ other source member

end Transferred

/-! ## Files to run on -/

/-- A file in the current directory that is read in these pieces. -/
def sampleFile (fileName : String)
    (named : Path.fileName (asBytes fileName) = some (asBytes fileName))
    (pieces : List (List UInt8)) (nonempty : ∀ piece ∈ pieces, piece ≠ [])
    (bounded : pieces.flatten.length < UInt64.size) : SourceFile where
  fileId := Uuid.nil
  filePath := asBytes fileName
  fileName := fileName
  file := deliver pieces
  named := named
  readable := by
    intro event member
    obtain ⟨piece, inPieces, rfl⟩ := List.mem_map.mp member
    exact ⟨piece, nonempty piece inPieces, rfl⟩
  bounded := by rwa [contents_deliver]

def fileA : SourceFile :=
  sampleFile "a" (by decide) [[1, 2, 3, 4], [5, 6, 7, 8], [9, 10, 11, 12]] (by decide) (by decide)

def fileB : SourceFile :=
  sampleFile "b" (by decide) [[21, 22, 23, 24], [25, 26, 27, 28]] (by decide) (by decide)

/-- The datagram for a piece of four bytes, when blocks have room for just these. -/
def sampleDatagram (fileName : String) (fileLength chunkOffset : UInt64) (piece : List UInt8) :
    List UInt8 :=
  DatagramHeader.layout ⟨Uuid.nil, fileLength, chunkOffset, 4, fileName⟩ (asBytes fileName) ++ piece

theorem datagrams_of_written {source : SourceFile} {datagrams : List (List UInt8)}
    (written : (source.send 296).2.written = datagrams.flatten)
    (sizes : ∀ datagram ∈ datagrams, datagram.length = 296) : source.datagrams 296 = datagrams := by
  rw [SourceFile.datagrams, written, ← List.append_nil datagrams.flatten]
  exact Chunks.chunksExact_flatten sizes (by decide)

/-- Each read fills the buffer. -/
theorem datagrams_fileA :
    fileA.datagrams 296 = [sampleDatagram "a" 12 0 [1, 2, 3, 4],
      sampleDatagram "a" 12 4 [5, 6, 7, 8], sampleDatagram "a" 12 8 [9, 10, 11, 12]] := by
  apply datagrams_of_written _ (by decide +kernel)
  rw [fileA.send_eq (by decide)]
  have isFile : fileA.file =
    [.data [1, 2, 3, 4], .data [5, 6, 7, 8], .data [9, 10, 11, 12]] := rfl
  have room : 296 - datagramHeaderLen = 4 := rfl
  rw [isFile, room, sendLoop_full (by simp) (by decide) (by simp) (by rfl),
    sendLoop_full (by simp) (by decide) (by simp) (by rfl),
    sendLoop_full (by simp) (by decide) (by simp) (by rfl), sendLoop_end (by rfl)]
  decide +kernel

theorem datagrams_fileB :
    fileB.datagrams 296 =
      [sampleDatagram "b" 8 0 [21, 22, 23, 24], sampleDatagram "b" 8 4 [25, 26, 27, 28]] := by
  apply datagrams_of_written _ (by decide +kernel)
  rw [fileB.send_eq (by decide)]
  have isFile : fileB.file = [.data [21, 22, 23, 24], .data [25, 26, 27, 28]] := rfl
  have room : 296 - datagramHeaderLen = 4 := rfl
  rw [isFile, room, sendLoop_full (by simp) (by decide) (by simp) (by rfl),
    sendLoop_full (by simp) (by decide) (by simp) (by rfl), sendLoop_end (by rfl)]
  decide +kernel

theorem permissive_accepts (outputPath : Path) (arrivals : List (List UInt8)) :
    permissive.Accepts outputPath arrivals :=
  fun _ _ _ _ => ⟨rfl, rfl⟩

theorem SourceFile.datagrams_nonempty (source : SourceFile) {blockSize : Nat}
    (large : datagramHeaderLen < blockSize) (small : blockSize - datagramHeaderLen < UInt32.size) :
    ∀ datagram ∈ source.datagrams blockSize, datagram ≠ [] := by
  intro datagram member empty
  have size := (source.sent large (source.send_ok large small)).length_mem datagram member
  rw [empty, List.length_nil] at size
  omega

section Transfers

variable {fs : FileSystem} {outputPath : Path} {blockSize : Nat} {arrivals : List (List UInt8)}
  {stream : Reader} {disk : Disk}

/-! ## Any order -/

/-- The datagrams of files with different plain names arrive in any order, interleaved in any way
    and repeated any number of times: into a place without these files, the files are put back
    together, and nothing else is. -/
theorem reassembled_in_any_order {sources : List SourceFile}
    (large : datagramHeaderLen < blockSize) (small : blockSize - datagramHeaderLen < UInt32.size)
    (plain : ∀ source ∈ sources, PlainName (asBytes (transmittedName source.fileName)))
    (distinct : sources.Pairwise fun source other =>
      transmittedName source.fileName ≠ transmittedName other.fileName)
    (nonempty : ∀ source ∈ sources, source.content ≠ [])
    (genuine : ∀ datagram ∈ arrivals, ∃ source ∈ sources, datagram ∈ source.datagrams blockSize)
    (complete : ∀ source ∈ sources, ∀ datagram ∈ source.datagrams blockSize, datagram ∈ arrivals)
    (quiet : Quiet onReadError stream) (content : contents stream = arrivals.flatten)
    (accepts : fs.Accepts outputPath arrivals)
    (absent : ∀ source ∈ sources, disk (Path.components (source.destination outputPath)) = none) :
    (processStream fs outputPath blockSize stream).2 = some (.err .unexpectedEof) ∧
      (∀ source ∈ sources, disk.after (processStream fs outputPath blockSize stream).1
        (Path.components (source.destination outputPath)) = some source.content) ∧
      ∀ place, (∀ source ∈ sources,
          place ≠ Path.components (source.destination outputPath)) →
        disk.after (processStream fs outputPath blockSize stream).1 place = disk place := by
  have transferred : Transferred fs outputPath blockSize sources arrivals stream :=
    { large
      well := fun source _ => source.send_ok large small
      plain, distinct, nonempty, genuine, complete, quiet, content, accepts }
  refine ⟨?_, ?_, fun place other => transferred.after_other other⟩
  · rw [transferred.processStream_eq]
  · intro source member
    rw [transferred.after member, absent source member, Option.getD_none, List.drop_nil,
      List.append_nil]

/-- The second file arrives before and after the first one, whose datagrams come in reverse. -/
def sampleArrivals : List (List UInt8) :=
  fileB.datagrams 296 ++ (fileA.datagrams 296).reverse ++ fileB.datagrams 296

theorem reassembled_in_any_order_sample :
    (fileA.datagrams 296).length = 3 ∧ (fileB.datagrams 296).length = 2 ∧
      Disk.after (fun _ => none) (processStream permissive [] 296 (deliver sampleArrivals)).1
        (Path.components (fileA.destination [])) =
          some [1, 2, 3, 4, 5, 6, 7, 8, 9, 10, 11, 12] ∧
      Disk.after (fun _ => none) (processStream permissive [] 296 (deliver sampleArrivals)).1
        (Path.components (fileB.destination [])) =
          some [21, 22, 23, 24, 25, 26, 27, 28] := by
  have large : datagramHeaderLen < 296 := by decide
  have small : 296 - datagramHeaderLen < UInt32.size := by decide
  have genuine : ∀ datagram ∈ sampleArrivals, ∃ source ∈ [fileA, fileB],
      datagram ∈ source.datagrams 296 := by
    simp only [sampleArrivals, List.mem_append, List.mem_reverse]
    rintro datagram ((sent | sent) | sent)
    · exact ⟨fileB, by simp, sent⟩
    · exact ⟨fileA, by simp, sent⟩
    · exact ⟨fileB, by simp, sent⟩
  have complete : ∀ source ∈ [fileA, fileB], ∀ datagram ∈ source.datagrams 296,
      datagram ∈ sampleArrivals := by
    intro source member datagram sent
    simp only [sampleArrivals, List.mem_append, List.mem_reverse]
    cases member with
    | head => exact Or.inl (Or.inr sent)
    | tail _ member =>
      cases List.mem_singleton.mp member
      exact Or.inr sent
  have quiet : Quiet onReadError (deliver sampleArrivals) := by
    apply quiet_deliver
    intro datagram arrived
    obtain ⟨source, -, sent⟩ := genuine datagram arrived
    exact source.datagrams_nonempty large small datagram sent
  have reassembled : _ ∧ (∀ source ∈ [fileA, fileB], Disk.after (fun _ => none)
      (processStream permissive [] 296 (deliver sampleArrivals)).1 _ = some source.content) ∧ _ :=
    reassembled_in_any_order large small (by decide) (by decide) (by decide) genuine complete quiet
      (contents_deliver sampleArrivals) (permissive_accepts [] sampleArrivals) (fun _ _ => rfl)
  obtain ⟨-, files, -⟩ := reassembled
  refine ⟨?_, ?_, files fileA (by simp), files fileB (by simp)⟩
  · rw [datagrams_fileA]
    rfl
  · rw [datagrams_fileB]
    rfl

/-! ## Existing files -/

/-- The destination is the file, and of the length that the headers announce. -/
structure Replaced (source : SourceFile) (outputPath : Path) (arrivals : List (List UInt8))
    (disk : Disk) : Prop where
  content : disk (Path.components (source.destination outputPath)) = some source.content
  announced : ∀ datagram ∈ arrivals, ∀ header, DatagramHeader.deserialize datagram = .ok header →
    header.fileLength.toNat = source.content.length

/-- A completed transfer replaces what was at its destination exactly when that was not longer than
    the file: the destination is opened without truncation, and the announced length is not used. -/
theorem replaced_iff {source : SourceFile} (large : datagramHeaderLen < blockSize)
    (well : (source.send blockSize).1 = .ok ()) (plain : PlainName (asBytes source.fileName))
    (noWhitespace : ∀ char ∈ source.fileName.toList, isWhitespace char = false)
    (nonempty : source.content ≠ [])
    (genuine : ∀ datagram ∈ arrivals, datagram ∈ source.datagrams blockSize)
    (complete : ∀ datagram ∈ source.datagrams blockSize, datagram ∈ arrivals)
    (quiet : Quiet onReadError stream) (content : contents stream = arrivals.flatten)
    (accepts : fs.Accepts outputPath arrivals) :
    Replaced source outputPath arrivals
        (disk.after (processStream fs outputPath blockSize stream).1) ↔
      ∀ old, disk (Path.components (source.destination outputPath)) = some old →
        old.length ≤ source.content.length := by
  have transferred : Transferred fs outputPath blockSize [source] arrivals stream :=
    { large
      well := by simpa using well
      plain := by simpa using plain_transmittedName plain noWhitespace
      distinct := List.pairwise_singleton ..
      nonempty := by simpa using nonempty
      genuine := by simpa using genuine
      complete := by simpa using complete
      quiet, content, accepts }
  have after : disk.after (processStream fs outputPath blockSize stream).1
      (Path.components (source.destination outputPath)) = _ :=
    transferred.after (List.mem_singleton_self source)
  constructor
  · intro replaced old present
    have same := replaced.content
    rw [after, present, Option.getD_some] at same
    -- what the old file had behind the new file's end is still there
    have tail : old.drop source.content.length = [] := by simpa using same
    exact List.drop_eq_nil_iff.mp tail
  · intro short
    refine ⟨?_, fun datagram arrived header reads => ?_⟩
    · have tail : ((disk (Path.components (source.destination outputPath))).getD []).drop
          source.content.length = [] := by
        cases present : disk (Path.components (source.destination outputPath)) with
        | none => simp
        | some old => simpa using short old present
      rw [after, tail, List.append_nil]
    · obtain ⟨other, payload, carries, fileLength, -, -⟩ :=
        SourceFile.handleDatagram_eq large well (genuine datagram arrived) accepts arrived
      obtain rfl : header = other := Outcome.ok.inj (reads.symm.trans carries.reads)
      rw [fileLength]
      exact UInt64.toNat_ofNat_of_lt source.bounded

/-- The datagrams arrive in reverse, over a shorter file. -/
theorem replaced_iff_sample :
    (fileA.datagrams 296).length = 3 ∧
      Replaced fileA [] (fileA.datagrams 296).reverse (Disk.after (fun _ => some [7, 8])
        (processStream permissive [] 296 (deliver (fileA.datagrams 296).reverse)).1) := by
  have large : datagramHeaderLen < 296 := by decide
  have small : 296 - datagramHeaderLen < UInt32.size := by decide
  have chars : fileA.fileName.toList = ['a'] := by decide
  have noWhitespace : ∀ char ∈ fileA.fileName.toList, isWhitespace char = false := by
    intro char member
    rw [chars] at member
    cases List.mem_singleton.mp member
    decide
  have nonempty : ∀ datagram ∈ (fileA.datagrams 296).reverse, datagram ≠ [] := by
    simpa using fileA.datagrams_nonempty large small
  refine ⟨by rw [datagrams_fileA]; rfl, ?_⟩
  apply (replaced_iff large (fileA.send_ok large small) (by decide) noWhitespace (by decide)
    (fun _ => List.mem_reverse.mp) (fun _ => List.mem_reverse.mpr) (quiet_deliver nonempty)
    (contents_deliver _) (permissive_accepts [] _)).mpr
  rintro old same
  cases same
  decide

/-- An older, longer file keeps its tail. -/
theorem not_replaced_longer :
    Disk.after (fun _ => some (List.replicate 14 7))
        (processStream permissive [] 296 (deliver (fileA.datagrams 296))).1
        (Path.components (fileA.destination [])) =
          some [1, 2, 3, 4, 5, 6, 7, 8, 9, 10, 11, 12, 7, 7] ∧
      ¬Replaced fileA [] (fileA.datagrams 296) (Disk.after (fun _ => some (List.replicate 14 7))
        (processStream permissive [] 296 (deliver (fileA.datagrams 296))).1) := by
  have large : datagramHeaderLen < 296 := by decide
  have small : 296 - datagramHeaderLen < UInt32.size := by decide
  have transferred : Transferred permissive [] 296 [fileA] (fileA.datagrams 296)
      (deliver (fileA.datagrams 296)) :=
    { large
      well := by simpa using fileA.send_ok large small
      plain := by decide
      distinct := List.pairwise_singleton ..
      nonempty := by decide
      genuine := by simp
      complete := by simp
      quiet := quiet_deliver (fileA.datagrams_nonempty large small)
      content := contents_deliver _
      accepts := permissive_accepts [] _ }
  have tail : Disk.after (fun _ => some (List.replicate 14 7))
      (processStream permissive [] 296 (deliver (fileA.datagrams 296))).1
      (Path.components (fileA.destination [])) =
        some [1, 2, 3, 4, 5, 6, 7, 8, 9, 10, 11, 12, 7, 7] :=
    transferred.after (List.mem_singleton_self fileA)
  refine ⟨tail, fun replaced => ?_⟩
  have same : some fileA.content = _ := replaced.content.symm.trans tail
  revert same
  decide

end Transfers

end GarudaCodec.FileTransfer
