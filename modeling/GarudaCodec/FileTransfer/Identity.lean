import GarudaCodec.FileTransfer.HeaderFormat
import GarudaCodec.FileTransfer.Coverage
import GarudaCodec.FileTransfer.Confinement

/-! # Files under their own names

A legal file name always fits into the name field, so all that the header takes from it is its
whitespace.  Names that differ in more than that lead to different files.
-/

namespace GarudaCodec.FileTransfer

open GarudaCodec.Foundation
open GarudaCodec.Foundation.Readers

/-- The names that Unix file systems allow. -/
structure LegalName (name : String) : Prop where
  plain : PlainName (asBytes name)
  short : name.utf8ByteSize ≤ 255

/-! ## The name that arrives -/

theorem LegalName.transmittedName {name : String} (legal : LegalName name) :
    transmittedName name = withoutWhitespace name := by
  have truncation : truncateUtf8 name fileNameLen = some name :=
    if_pos (Nat.le_trans legal.short (by decide))
  have uncut : (withoutWhitespace name).toList.takeWhile (· != '\x00') =
      (withoutWhitespace name).toList := by
    apply List.takeWhile_eq_self_iff.mpr
    intro char member
    rw [withoutWhitespace, String.toList_ofList] at member
    simp only [bne_iff_ne, ne_eq]
    rintro rfl
    exact notMem_nul legal.plain.noNul (List.mem_filter.mp member).1
  rw [transmittedName_eq truncation, uncut, String.ofList_toList]

theorem asBytes_withoutWhitespace_subset (name : String) :
    asBytes (withoutWhitespace name) ⊆ asBytes name := by
  rw [withoutWhitespace, asBytes_ofList, asBytes_eq]
  exact (List.filter_sublist.flatMap _).subset

/-- Headers with the same legal name are read back with the same name, whatever else they say. -/
theorem LegalName.deserialize {header : DatagramHeader} (legal : LegalName header.fileName) :
    ∃ bytes, header.serialize = some bytes ∧ ∀ rest, DatagramHeader.deserialize (bytes ++ rest) =
      .ok { header with fileName := withoutWhitespace header.fileName } := by
  obtain ⟨bytes, serialized, -, reads⟩ := header.deserialize_serialize
  refine ⟨bytes, serialized, fun rest => ?_⟩
  rw [reads, legal.transmittedName]

/-! ## Where names lead -/

/-- The name of a normal component. -/
def Component.normalName : Component → Option (List UInt8)
  | .normal name => some name
  | _ => none

namespace Path

/-- The names on a path, without its root and its dot components. -/
def normalNames (path : Path) : List (List UInt8) :=
  (components path).filterMap Component.normalName

theorem normalNames_eq (path : Path) :
    normalNames path = (path.splitOn separator).filterMap fun segment =>
      (segmentComponent segment).bind Component.normalName := by
  have first : (firstComponent path).filterMap Component.normalName = [] := by
    rw [firstComponent]
    split
    · rfl
    · split
      · rfl
      · rfl
  rw [normalNames, components, List.filterMap_append, first, List.nil_append,
    List.filterMap_filterMap]

theorem normalNames_append (front back : List UInt8) :
    normalNames (front ++ separator :: back) = normalNames front ++ normalNames back := by
  rw [normalNames_eq, splitOn_append, List.filterMap_append, ← normalNames_eq, ← normalNames_eq]

theorem normalNames_nil : normalNames [] = [] := by decide

/-- A relative name only adds its own names to those of the directory. -/
theorem normalNames_join (base : Path) {name : List UInt8} (noSeparator : separator ∉ name) :
    normalNames (join base name) = normalNames base ++ normalNames name := by
  have relative : isAbsolute name = false := by
    rw [isAbsolute, beq_eq_false_iff_ne]
    intro absolute
    exact noSeparator (List.mem_of_mem_head? absolute)
  rw [join, relative]
  simp only [Bool.false_eq_true, if_false]
  rcases List.eq_nil_or_concat base with rfl | ⟨front, last, rfl⟩
  · rw [if_pos (Or.inl rfl), List.nil_append, normalNames_nil, List.nil_append]
  · by_cases trailing : last = separator
    · subst trailing
      rw [if_pos (Or.inr (by simp)), List.concat_eq_append, List.append_assoc,
        List.singleton_append, normalNames_append, normalNames_append, normalNames_nil, List.append_nil]
    · rw [if_neg (by simpa using trailing), normalNames_append]

theorem normalNames_plain {name : List UInt8} (plain : PlainName name) :
    normalNames name = [name] := by
  rw [normalNames, components_plain plain]
  rfl

/-- A name that no directory entry can have is none of the names on a path. -/
theorem normalNames_of_not_plain {name : List UInt8} (noSeparator : separator ∉ name)
    (noNul : 0 ∉ name) (notPlain : ¬PlainName name) : normalNames name = [] := by
  have dots : name = [] ∨ name = [dot] ∨ name = [dot, dot] := by
    by_contra other
    simp only [not_or] at other
    exact notPlain ⟨other.1, noSeparator, noNul, other.2.1, other.2.2⟩
  rcases dots with rfl | rfl | rfl
  · decide
  · decide
  · decide

end Path

section Destinations

variable {left right : String}

theorem LegalName.notMem (legal : LegalName left) :
    separator ∉ asBytes (withoutWhitespace left) ∧ 0 ∉ asBytes (withoutWhitespace left) :=
  ⟨fun member => legal.plain.noSeparator (asBytes_withoutWhitespace_subset left member),
    fun member => legal.plain.noNul (asBytes_withoutWhitespace_subset left member)⟩

/-- Names that differ in more than whitespace lead to different places, if either leads to a
    file at all. -/
theorem components_join_withoutWhitespace (outputPath : Path) (legalLeft : LegalName left)
    (legalRight : LegalName right) (differ : withoutWhitespace left ≠ withoutWhitespace right)
    (named : PlainName (asBytes (withoutWhitespace left)) ∨
      PlainName (asBytes (withoutWhitespace right))) :
    Path.components (Path.join outputPath (asBytes (withoutWhitespace left))) ≠
      Path.components (Path.join outputPath (asBytes (withoutWhitespace right))) := by
  intro same
  obtain ⟨leftSeparator, leftNul⟩ := legalLeft.notMem
  obtain ⟨rightSeparator, rightNul⟩ := legalRight.notMem
  have names := congrArg (List.filterMap Component.normalName) same
  rw [← Path.normalNames, ← Path.normalNames, Path.normalNames_join _ leftSeparator,
    Path.normalNames_join _ rightSeparator] at names
  have last := List.append_cancel_left names
  by_cases plainLeft : PlainName (asBytes (withoutWhitespace left))
  · by_cases plainRight : PlainName (asBytes (withoutWhitespace right))
    · rw [Path.normalNames_plain plainLeft, Path.normalNames_plain plainRight] at last
      exact differ (asBytes_injective (List.singleton_inj.mp last))
    · rw [Path.normalNames_plain plainLeft,
        Path.normalNames_of_not_plain rightSeparator rightNul plainRight] at last
      simp at last
  · rcases named with plain | plainRight
    · exact plainLeft plain
    · rw [Path.normalNames_of_not_plain leftSeparator leftNul plainLeft,
        Path.normalNames_plain plainRight] at last
      simp at last

end Destinations

/-! ## What a transfer sends -/

/-- The record begins with a header under this file name. -/
def Labelled (fileName : String) (record : List UInt8) : Prop :=
  ∃ header headerBytes rest, header.fileName = fileName ∧
    DatagramHeader.serialize header = some headerBytes ∧ record = headerBytes ++ rest

/-- Whether or not the loop ends well, it has written whole records under the file's name. -/
theorem sendLoop_labelled {fileId : Uuid} {fileName : String} {fileLength : UInt64}
    {buffer : List UInt8} {offset : UInt64} {file : Reader} {stream : OutputStream}
    {blockSize : Nat} (readable : Readable file) (positive : 0 < buffer.length)
    (size : datagramHeaderLen + buffer.length = blockSize) (unbounded : stream.room = none) :
    ∃ records : List (List UInt8),
      (sendLoop fileId fileName fileLength buffer offset file stream).2.written =
        stream.written ++ records.flatten ∧
      ∀ record ∈ records, record.length = blockSize ∧ Labelled fileName record := by
  have refills := readable.refills positive
  clear readable positive
  generalize contents file = data at refills
  induction refills generalizing offset stream with
  | atEnd reads => exact ⟨[], by rw [sendLoop_end reads]; simp, by simp⟩
  | @turn buffer bytes data file rest reads nonempty refilled _ inductionHypothesis =>
    by_cases large : UInt32.size ≤ bytes.length
    · exact ⟨[], by rw [sendLoop_large reads large]; simp, by simp⟩
    · obtain ⟨next, chunk, nextRoom⟩ := sendChunk_unbounded unbounded
        ⟨fileId, fileLength, offset, UInt32.ofNat bytes.length, fileName⟩
        (bytes ++ buffer.drop bytes.length)
      obtain ⟨headerBytes, serialized, wrote⟩ := sendChunk_ok chunk
      obtain ⟨headerSize, -⟩ :=
        carries_of_serialize (buffer.drop bytes.length) serialized rfl (by omega)
      obtain ⟨records, written, labelled⟩ := inductionHypothesis (by rw [refilled]; exact size)
        nextRoom
      rw [sendLoop_step reads nonempty (by omega), chunk]
      refine ⟨(headerBytes ++ (bytes ++ buffer.drop bytes.length)) :: records, ?_, ?_⟩
      · rw [written, wrote, List.flatten_cons, List.append_assoc]
      · refine List.forall_mem_cons.mpr ⟨⟨?_, _, headerBytes, _, rfl, serialized, rfl⟩, labelled⟩
        rw [List.length_append, headerSize, refilled, size]

/-- Every datagram of a transfer is labelled, also where `send` fails on its way. -/
theorem SourceFile.labelled (source : SourceFile) (blockSize : Nat) :
    ∀ datagram ∈ source.datagrams blockSize, Labelled source.fileName datagram := by
  have records : ∃ records : List (List UInt8),
      (source.send blockSize).2.written = records.flatten ∧
        ∀ record ∈ records, record.length = blockSize ∧ Labelled source.fileName record := by
    rcases Nat.lt_trichotomy blockSize datagramHeaderLen with small | rfl | large
    · have refused := source.sendOver_small ⟨[], none⟩ small
      exact ⟨[], congrArg (·.2.written) refused, by simp⟩
    · have nothing := source.sendOver_nothing ⟨[], none⟩ (Nat.le_refl _) (Or.inr rfl)
      exact ⟨[], congrArg (·.2.written) nothing, by simp⟩
    · rw [source.send_eq large]
      exact sendLoop_labelled source.readable (by rw [List.length_replicate]; omega)
        (by rw [List.length_replicate]; omega) rfl
  obtain ⟨records, written, labelled⟩ := records
  rcases Nat.eq_zero_or_pos blockSize with rfl | positive
  · simp [datagrams, Chunks.chunksExact]
  · have same : source.datagrams blockSize = records := by
      rw [datagrams, written, ← List.append_nil records.flatten]
      exact Chunks.chunksExact_flatten (fun record member => (labelled record member).1) positive
    intro datagram member
    exact (labelled datagram (same ▸ member)).2

/-- What is written for a labelled datagram goes to the place of its name. -/
theorem Labelled.path {fileName : String} {datagram : List UInt8}
    (labelled : Labelled fileName datagram) (legal : LegalName fileName) (fs : FileSystem)
    (outputPath : Path) :
    ∀ write ∈ (handleDatagram fs outputPath datagram).1,
      write.path = Path.join outputPath (asBytes (withoutWhitespace fileName)) := by
  obtain ⟨header, headerBytes, rest, rfl, serialized, rfl⟩ := labelled
  obtain ⟨bytes, same, reads⟩ := legal.deserialize
  obtain rfl : headerBytes = bytes := Option.some.inj (serialized.symm.trans same)
  refine (@forall_handleDatagram fs outputPath _ fun path =>
    path = Path.join outputPath (asBytes (withoutWhitespace header.fileName))).mpr fun opens => ?_
  rw [← DatagramHeader.asBytes_fileName (reads rest)]

/-! ## Identity -/

/-- A header with one byte of payload behind it. -/
def namedHeader (fileName : String) : DatagramHeader where
  fileId := Uuid.nil
  fileLength := 1
  chunkOffset := 0
  payloadLength := 1
  fileName := fileName

/-- A file whose name loses its blank. -/
def spacedFile : SourceFile :=
  sampleFile "a b" (by decide) [[1, 2, 3, 4], [5, 6, 7, 8]] (by decide) (by decide)

/-- A legal name comes back without its whitespace, so unchanged exactly when it has none.  Files
    whose names differ in more than whitespace have different destinations, if either name leaves
    one for a file at all, and no datagram of the one is written into the file of the other. -/
theorem identity_without_whitespace :
    (∀ header : DatagramHeader, LegalName header.fileName →
      ∃ bytes, header.serialize = some bytes ∧ ∀ rest, ∃ recovered,
        DatagramHeader.deserialize (bytes ++ rest) = .ok recovered ∧
        recovered.fileName = withoutWhitespace header.fileName ∧
        (recovered.fileName = header.fileName ↔
          ∀ char ∈ header.fileName.toList, isWhitespace char = false)) ∧
    ∀ left right : SourceFile, LegalName left.fileName → LegalName right.fileName →
      withoutWhitespace left.fileName ≠ withoutWhitespace right.fileName →
      PlainName (asBytes (withoutWhitespace left.fileName)) ∨
        PlainName (asBytes (withoutWhitespace right.fileName)) →
      ∀ outputPath,
        Path.components (left.destination outputPath) ≠
          Path.components (right.destination outputPath) ∧
        ∀ fs leftBlockSize rightBlockSize, ∀ datagram ∈ left.datagrams leftBlockSize,
          ∀ other ∈ right.datagrams rightBlockSize,
          ∀ write ∈ (handleDatagram fs outputPath datagram).1,
          ∀ otherWrite ∈ (handleDatagram fs outputPath other).1,
            write.path = left.destination outputPath ∧
              Path.components write.path ≠ Path.components otherWrite.path := by
  constructor
  · intro header legal
    obtain ⟨bytes, serialized, reads⟩ := legal.deserialize
    exact ⟨bytes, serialized, fun rest => ⟨_, reads rest, rfl, withoutWhitespace_eq_self⟩⟩
  · intro left right legalLeft legalRight differ named outputPath
    have places := components_join_withoutWhitespace outputPath legalLeft legalRight differ named
    refine ⟨?_, fun fs leftBlockSize rightBlockSize datagram member other otherMember write made
      otherWrite otherMade => ?_⟩
    · rw [SourceFile.destination, SourceFile.destination, legalLeft.transmittedName,
        legalRight.transmittedName]
      exact places
    · rw [(left.labelled leftBlockSize datagram member).path legalLeft fs outputPath write made,
        (right.labelled rightBlockSize other otherMember).path legalRight fs outputPath otherWrite
          otherMade, SourceFile.destination, legalLeft.transmittedName]
      exact ⟨rfl, places⟩

theorem identity_without_whitespace_sample :
    (∃ bytes, (namedHeader "a b").serialize = some bytes ∧ ∀ rest, ∃ recovered,
      DatagramHeader.deserialize (bytes ++ rest) = .ok recovered ∧ recovered.fileName = "ab") ∧
    ∀ datagram ∈ spacedFile.datagrams 296, ∀ other ∈ fileB.datagrams 296,
      ∀ write ∈ (handleDatagram permissive (asBytes "out") datagram).1,
      ∀ otherWrite ∈ (handleDatagram permissive (asBytes "out") other).1,
        write.path = asBytes "out/ab" ∧
          Path.components write.path ≠ Path.components otherWrite.path := by
  have spaced : LegalName "a b" := ⟨by decide, by decide⟩
  have plain : LegalName "b" := ⟨by decide, by decide⟩
  obtain ⟨names, destinations⟩ := identity_without_whitespace
  constructor
  · obtain ⟨bytes, serialized, reads⟩ := names (namedHeader "a b") spaced
    refine ⟨bytes, serialized, fun rest => ?_⟩
    obtain ⟨recovered, read, isStripped, -⟩ := reads rest
    exact ⟨recovered, read, isStripped.trans (by decide)⟩
  · obtain ⟨-, apart⟩ := destinations spacedFile fileB spaced plain (by decide)
      (Or.inl (by decide)) (asBytes "out")
    intro datagram sent other otherSent write made otherWrite otherMade
    obtain ⟨path, differ⟩ :=
      apart permissive 296 296 datagram sent other otherSent write made otherWrite otherMade
    have destination : spacedFile.destination (asBytes "out") = asBytes "out/ab" := by decide
    exact ⟨path.trans destination, differ⟩

theorem arrives_as_ab {fileName : String} (legal : LegalName fileName)
    (stripped : withoutWhitespace fileName = "ab") (byte : UInt8) :
    ∃ bytes, (namedHeader fileName).serialize = some bytes ∧
      DatagramHeader.deserialize bytes = .ok (namedHeader "ab") ∧
      handleDatagram permissive (asBytes "out") (bytes ++ [byte]) =
        ([⟨asBytes "out/ab", 0, [byte]⟩], .ok ()) := by
  obtain ⟨bytes, serialized, length, reads⟩ := (namedHeader fileName).deserialize_serialize
  have recovered : ∀ rest, DatagramHeader.deserialize (bytes ++ rest) =
      .ok (namedHeader "ab") := by
    intro rest
    rw [reads, namedHeader, legal.transmittedName, stripped]
    rfl
  have joined : Path.join (asBytes "out") (asBytes (namedHeader "ab").fileName) =
    asBytes "out/ab" := by decide
  have sliced : slice (bytes ++ [byte]) datagramHeaderLen
      (datagramHeaderLen + (namedHeader "ab").payloadLength.toNat) = some [byte] := by
    have one : (namedHeader "ab").payloadLength.toNat = 1 := rfl
    rw [one, slice_field (by rw [List.length_append, length]; simp), field,
      List.drop_left' length]
    rfl
  refine ⟨bytes, serialized, ?_, ?_⟩
  · have whole := recovered []
    rw [List.append_nil] at whole
    exact whole
  · simp only [handleDatagram, recovered, sliced, joined]
    rfl

/-- Two legal names of which the same name arrives, so that both files are written to `out/ab`. -/
theorem identity_lost :
    LegalName "a b" ∧ LegalName "ab" ∧ "a b" ≠ "ab" ∧
      ∃ bytes other, (namedHeader "a b").serialize = some bytes ∧
        (namedHeader "ab").serialize = some other ∧
        DatagramHeader.deserialize bytes = .ok (namedHeader "ab") ∧
        DatagramHeader.deserialize other = .ok (namedHeader "ab") ∧
        handleDatagram permissive (asBytes "out") (bytes ++ [1]) =
          ([⟨asBytes "out/ab", 0, [1]⟩], .ok ()) ∧
        handleDatagram permissive (asBytes "out") (other ++ [2]) =
          ([⟨asBytes "out/ab", 0, [2]⟩], .ok ()) := by
  have spaced : LegalName "a b" := ⟨by decide, by decide⟩
  have plain : LegalName "ab" := ⟨by decide, by decide⟩
  obtain ⟨bytes, serialized, reads, handled⟩ := arrives_as_ab spaced (by decide) 1
  obtain ⟨other, otherSerialized, otherReads, otherHandled⟩ := arrives_as_ab plain (by decide) 2
  exact ⟨spaced, plain, by decide, bytes, other, serialized, otherSerialized, reads, otherReads,
    handled, otherHandled⟩

end GarudaCodec.FileTransfer
