import GarudaCodec.FileTransfer.Reassembly

/-! # What `send` covers

A run of `send` that ends well has written records that together carry the whole file, as long as
there is a file to carry and room for it behind the header.  Otherwise the first read is empty, and
the run ends well without a record.
-/

namespace GarudaCodec.FileTransfer

open GarudaCodec.Foundation
open GarudaCodec.Foundation.Readers

/-- The end of the range that a header announces. -/
def DatagramHeader.chunkEnd (header : DatagramHeader) : Nat :=
  header.chunkOffset.toNat + header.payloadLength.toNat

/-- The records carry the file: a receiver reads from them headers of this one file, whose ranges
    follow one another from the beginning of the file to its end, each with its bytes of it. -/
structure CarryFile (source : SourceFile) (blockSize : Nat) (records : List (List UInt8))
    (chunks : List (DatagramHeader × List UInt8)) : Prop where
  nonempty : records ≠ []
  sizes : ∀ record ∈ records, record.length = blockSize
  carried : List.Forall₂ (fun chunk record => Carries chunk.1 chunk.2 record) chunks records
  sameFile : ∀ chunk ∈ chunks, chunk.1.fileId = source.fileId ∧
    chunk.1.fileName = transmittedName source.fileName ∧ chunk.1.fileLength = source.fileLength
  starts : ∀ chunk ∈ chunks.head?, chunk.1.chunkOffset.toNat = 0
  contiguous : chunks.IsChain fun chunk next => chunk.1.chunkEnd = next.1.chunkOffset.toNat
  ends : ∀ chunk ∈ chunks.getLast?, chunk.1.chunkEnd = source.content.length
  disjoint : chunks.Pairwise fun chunk later => chunk.1.chunkEnd ≤ later.1.chunkOffset.toNat
  covers : ∀ position < source.content.length, ∃ chunk ∈ chunks,
    chunk.1.chunkOffset.toNat ≤ position ∧ position < chunk.1.chunkEnd
  bytes : ∀ chunk ∈ chunks, chunk.2.length = chunk.1.payloadLength.toNat ∧
    chunk.2 = (source.content.drop chunk.1.chunkOffset.toNat).take chunk.1.payloadLength.toNat
  whole : (chunks.map Prod.snd).flatten = source.content

/-! ## Consecutive chunks -/

/-- The chunks of consecutive payloads, with the headers that a receiver reads for them. -/
def chunksFrom (fileId : Uuid) (fileName : String) (fileLength : UInt64) :
    Nat → List (List UInt8) → List (DatagramHeader × List UInt8)
  | _, [] => []
  | offset, payload :: payloads =>
    (⟨fileId, fileLength, UInt64.ofNat offset, UInt32.ofNat payload.length,
      transmittedName fileName⟩, payload) ::
      chunksFrom fileId fileName fileLength (offset + payload.length) payloads

theorem length_slice {buf part : List UInt8} {start stop : Nat}
    (cut : slice buf start stop = some part) : part.length = stop - start := by
  rw [slice] at cut
  split at cut
  · next inside =>
    rw [← Option.some.inj cut, List.length_take, List.length_drop]
    omega
  · cases cut

section Chunks

variable {fileId : Uuid} {fileName : String} {fileLength : UInt64} {blockSize offset : Nat}
  {data : List UInt8} {datagrams payloads : List (List UInt8)}

/-- The datagrams of a file carry consecutive chunks of it. -/
theorem Sent.chunks (sent : Sent fileId fileName fileLength blockSize offset data datagrams) :
    ∃ payloads : List (List UInt8), payloads.flatten = data ∧
      (∀ payload ∈ payloads, payload.length < UInt32.size) ∧
      List.Forall₂ (fun chunk record => Carries chunk.1 chunk.2 record)
        (chunksFrom fileId fileName fileLength offset payloads) datagrams := by
  induction sent with
  | done => exact ⟨[], rfl, by simp, .nil⟩
  | @chunk offset payload rest datagram datagrams nonempty size carries later inductionHypothesis =>
    obtain ⟨payloads, flat, small, carried⟩ := inductionHypothesis
    have counted := length_slice carries.carried
    rw [Nat.add_sub_cancel_left] at counted
    refine ⟨payload :: payloads, ?_, ?_, .cons carries carried⟩
    · rw [List.flatten_cons, flat]
    · refine List.forall_mem_cons.mpr ⟨?_, small⟩
      rw [counted]
      exact (UInt32.ofNat payload.length).toNat_lt

@[simp] theorem map_snd_chunksFrom :
    (chunksFrom fileId fileName fileLength offset payloads).map Prod.snd = payloads := by
  induction payloads generalizing offset with
  | nil => rfl
  | cons payload payloads inductionHypothesis =>
    rw [chunksFrom, List.map_cons, inductionHypothesis]

theorem sameFile_chunksFrom :
    ∀ chunk ∈ chunksFrom fileId fileName fileLength offset payloads,
      chunk.1.fileId = fileId ∧ chunk.1.fileName = transmittedName fileName ∧
        chunk.1.fileLength = fileLength := by
  induction payloads generalizing offset with
  | nil => simp [chunksFrom]
  | cons payload payloads inductionHypothesis =>
    rw [chunksFrom]
    exact List.forall_mem_cons.mpr ⟨⟨rfl, rfl, rfl⟩, inductionHypothesis⟩

/-- The numbers of a chunk fit the fields of its header. -/
structure FitsFields (offset : Nat) (payloads : List (List UInt8)) : Prop where
  bounded : offset + payloads.flatten.length < UInt64.size
  small : ∀ payload ∈ payloads, payload.length < UInt32.size

theorem FitsFields.head {payload : List UInt8} (fits : FitsFields offset (payload :: payloads)) :
    (UInt64.ofNat offset).toNat = offset ∧
      (UInt32.ofNat payload.length).toNat = payload.length := by
  have bounded := fits.bounded
  exact ⟨UInt64.toNat_ofNat_of_lt (by omega),
    UInt32.toNat_ofNat_of_lt (fits.small payload List.mem_cons_self)⟩

theorem FitsFields.tail {payload : List UInt8} (fits : FitsFields offset (payload :: payloads)) :
    FitsFields (offset + payload.length) payloads := by
  have bounded := fits.bounded
  rw [List.flatten_cons, List.length_append] at bounded
  exact ⟨by omega, fun other member => fits.small other (List.mem_cons_of_mem _ member)⟩

theorem starts_chunksFrom (fits : FitsFields offset payloads) :
    ∀ chunk ∈ (chunksFrom fileId fileName fileLength offset payloads).head?,
      chunk.1.chunkOffset.toNat = offset := by
  cases payloads with
  | nil => simp [chunksFrom]
  | cons payload payloads => simp [chunksFrom, fits.head.1]

/-- Every chunk holds the bytes of its range, which lies behind the offset it was counted from. -/
theorem mem_chunksFrom (fits : FitsFields offset payloads) :
    ∀ chunk ∈ chunksFrom fileId fileName fileLength offset payloads,
      offset ≤ chunk.1.chunkOffset.toNat ∧ chunk.2.length = chunk.1.payloadLength.toNat ∧
      chunk.2 = (payloads.flatten.drop (chunk.1.chunkOffset.toNat - offset)).take
        chunk.1.payloadLength.toNat := by
  induction payloads generalizing offset with
  | nil => simp [chunksFrom]
  | cons payload payloads inductionHypothesis =>
    obtain ⟨position, length⟩ := fits.head
    rw [chunksFrom]
    refine List.forall_mem_cons.mpr ⟨?_, fun chunk member => ?_⟩
    · simp [position, length]
    · obtain ⟨behind, size, bytes⟩ := inductionHypothesis fits.tail chunk member
      refine ⟨by omega, size, ?_⟩
      have split : chunk.1.chunkOffset.toNat - offset =
          payload.length + (chunk.1.chunkOffset.toNat - (offset + payload.length)) := by omega
      rw [List.flatten_cons, split, ← List.drop_drop, List.drop_left]
      exact bytes

theorem contiguous_chunksFrom (fits : FitsFields offset payloads) :
    (chunksFrom fileId fileName fileLength offset payloads).IsChain
      fun chunk next => chunk.1.chunkEnd = next.1.chunkOffset.toNat := by
  induction payloads generalizing offset with
  | nil => exact .nil
  | cons payload payloads inductionHypothesis =>
    obtain ⟨position, length⟩ := fits.head
    rw [chunksFrom, List.isChain_cons]
    refine ⟨fun next first => ?_, inductionHypothesis fits.tail⟩
    rw [starts_chunksFrom fits.tail next first, DatagramHeader.chunkEnd, position, length]

theorem ends_chunksFrom (fits : FitsFields offset payloads) :
    ∀ chunk ∈ (chunksFrom fileId fileName fileLength offset payloads).getLast?,
      chunk.1.chunkEnd = offset + payloads.flatten.length := by
  induction payloads generalizing offset with
  | nil => simp [chunksFrom]
  | cons payload payloads inductionHypothesis =>
    obtain ⟨position, length⟩ := fits.head
    have later := inductionHypothesis fits.tail
    cases payloads with
    | nil => simp [chunksFrom, DatagramHeader.chunkEnd, position, length]
    | cons second payloads =>
      intro chunk last
      rw [chunksFrom, chunksFrom, List.getLast?_cons_cons, ← chunksFrom] at last
      have flat : (payload :: second :: payloads).flatten =
        payload ++ (second :: payloads).flatten := List.flatten_cons
      rw [later chunk last, flat, List.length_append, Nat.add_assoc]

theorem disjoint_chunksFrom (fits : FitsFields offset payloads) :
    (chunksFrom fileId fileName fileLength offset payloads).Pairwise
      fun chunk later => chunk.1.chunkEnd ≤ later.1.chunkOffset.toNat := by
  induction payloads generalizing offset with
  | nil => exact .nil
  | cons payload payloads inductionHypothesis =>
    obtain ⟨position, length⟩ := fits.head
    rw [chunksFrom]
    refine .cons (fun later member => ?_) (inductionHypothesis fits.tail)
    rw [DatagramHeader.chunkEnd, position, length]
    exact (mem_chunksFrom fits.tail later member).1

theorem covers_chunksFrom (fits : FitsFields offset payloads) :
    ∀ position, offset ≤ position → position < offset + payloads.flatten.length →
      ∃ chunk ∈ chunksFrom fileId fileName fileLength offset payloads,
        chunk.1.chunkOffset.toNat ≤ position ∧ position < chunk.1.chunkEnd := by
  induction payloads generalizing offset with
  | nil =>
    intro position low high
    simp at high
    omega
  | cons payload payloads inductionHypothesis =>
    intro position low high
    obtain ⟨start, length⟩ := fits.head
    rw [List.flatten_cons, List.length_append] at high
    rw [chunksFrom]
    rcases Nat.lt_or_ge position (offset + payload.length) with here | there
    · refine ⟨_, List.mem_cons_self, ?_⟩
      simp only [DatagramHeader.chunkEnd, start, length]
      exact ⟨low, here⟩
    · obtain ⟨chunk, member, covered⟩ :=
        inductionHypothesis fits.tail position there (by omega)
      exact ⟨chunk, List.mem_cons_of_mem _ member, covered⟩

end Chunks

/-! ## Runs -/

namespace SourceFile

variable (source : SourceFile) (stream : OutputStream) {blockSize : Nat}

/-- A run that ends well has written records that carry the file, if there are any. -/
theorem sendOver_carries (nonempty : source.content ≠ []) (large : datagramHeaderLen < blockSize)
    (well : (source.sendOver stream blockSize).1 = .ok ()) :
    ∃ records chunks, (source.sendOver stream blockSize).2.written =
      stream.written ++ records.flatten ∧ CarryFile source blockSize records chunks := by
  rw [source.sendOver_eq stream (Nat.le_of_lt large)] at well ⊢
  obtain ⟨records, written, sent⟩ := sendLoop_sent source.readable
    (by rw [List.length_replicate]; omega)
    (by rw [List.length_replicate]; omega : _ = blockSize) well
  obtain ⟨payloads, flat, small, carried⟩ := sent.chunks
  have whole : payloads.flatten = source.content := flat
  have fits : FitsFields 0 payloads := by
    refine ⟨?_, small⟩
    rw [whole, Nat.zero_add]
    exact source.bounded
  refine ⟨records, _, written, ?_, sent.length_mem, carried, sameFile_chunksFrom,
    starts_chunksFrom fits, contiguous_chunksFrom fits, fun chunk last => ?_,
    disjoint_chunksFrom fits, fun position inside => ?_, fun chunk member => ?_, ?_⟩
  · rintro rfl
    have noChunks := congrArg (List.map Prod.snd) (List.forall₂_nil_right_iff.mp carried)
    rw [map_snd_chunksFrom] at noChunks
    exact nonempty (by rw [← whole, noChunks]; rfl)
  · rw [ends_chunksFrom fits chunk last, whole, Nat.zero_add]
  · exact covers_chunksFrom fits position (Nat.zero_le _)
      (by rw [whole, Nat.zero_add]; exact inside)
  · obtain ⟨-, size, bytes⟩ := mem_chunksFrom fits chunk member
    rw [whole, Nat.sub_zero] at bytes
    exact ⟨size, bytes⟩
  · rw [map_snd_chunksFrom, whole]

/-- With nothing to read, or no room behind the header, a run ends well at once. -/
theorem sendOver_nothing (large : datagramHeaderLen ≤ blockSize)
    (nothing : source.content = [] ∨ blockSize = datagramHeaderLen) :
    source.sendOver stream blockSize = (.ok (), stream) := by
  rw [source.sendOver_eq stream large]
  rcases nothing with empty | rfl
  · have file : source.file = [] := by
      rw [content] at empty
      cases events : source.file with
      | nil => rfl
      | cons event events' =>
        obtain ⟨bytes, nonempty, rfl⟩ := source.readable event (by rw [events]; exact .head _)
        rw [events, contents_data] at empty
        exact absurd (List.append_eq_nil_iff.mp empty).1 nonempty
    have reads : ∀ len, read source.file len = (.ok [], []) := by
      intro len
      rw [file]
      rfl
    exact sendLoop_end (reads _)
  · obtain ⟨rest, reads⟩ := source.readable.read_zero
    rw [Nat.sub_self, List.replicate_zero]
    exact sendLoop_end reads

/-- Such a run has written no records that carry the file. -/
theorem sendOver_not_carries (large : datagramHeaderLen ≤ blockSize)
    (nothing : source.content = [] ∨ blockSize = datagramHeaderLen) :
    ¬∃ records chunks, (source.sendOver stream blockSize).2.written =
      stream.written ++ records.flatten ∧ CarryFile source blockSize records chunks := by
  rintro ⟨records, chunks, written, carry⟩
  rw [source.sendOver_nothing stream large nothing] at written
  have flat : records.flatten = [] :=
    List.append_cancel_left (written.symm.trans (List.append_nil _).symm)
  -- but a record has at least the length of a header
  obtain ⟨record, member⟩ := List.exists_mem_of_ne_nil records carry.nonempty
  have size := carry.sizes record member
  rw [List.flatten_eq_nil_iff.mp flat record member, List.length_nil] at size
  have header : 0 < datagramHeaderLen := by decide
  omega

end SourceFile

/-- Whenever a run ends well it has written records that carry the file, exactly if the file is not
    empty and a block has room for more than the header. -/
theorem send_covers_iff (source : SourceFile) (stream : OutputStream) {blockSize : Nat}
    (large : datagramHeaderLen ≤ blockSize) :
    ((source.sendOver stream blockSize).1 = .ok () →
        ∃ records chunks, (source.sendOver stream blockSize).2.written =
          stream.written ++ records.flatten ∧ CarryFile source blockSize records chunks) ↔
      source.content ≠ [] ∧ datagramHeaderLen < blockSize := by
  constructor
  · intro covers
    by_contra condition
    have nothing : source.content = [] ∨ blockSize = datagramHeaderLen := by
      by_contra something
      rw [not_or] at something
      exact condition ⟨something.1, by omega⟩
    have run := source.sendOver_nothing stream large nothing
    exact source.sendOver_not_carries stream large nothing (covers (by rw [run]))
  · rintro ⟨nonempty, room⟩ well
    exact source.sendOver_carries stream nonempty room well

/-- A file that takes three records. -/
theorem send_covers_iff_sample :
    ∃ records chunks, (fileA.sendOver ⟨[], none⟩ 296).2.written = [] ++ records.flatten ∧
      CarryFile fileA 296 records chunks ∧ records.length = 3 := by
  have well : (fileA.sendOver ⟨[], none⟩ 296).1 = .ok () :=
    fileA.send_ok (by decide) (by decide)
  obtain ⟨records, chunks, written, carry⟩ :=
    (send_covers_iff fileA ⟨[], none⟩ (by decide)).mpr ⟨by decide, by decide⟩ well
  have same : fileA.datagrams 296 = records := datagrams_of_written written carry.sizes
  rw [datagrams_fileA] at same
  exact ⟨records, chunks, written, carry, by rw [← same]; rfl⟩

theorem readable_nil : Readable [] := by simp [Readable]

theorem bounded_nil : (contents []).length < UInt64.size := by decide

/-- A file without content. -/
def emptyFile : SourceFile :=
  { fileA with file := [], readable := readable_nil, bounded := bounded_nil }

/-- Neither an empty file nor a block that is all header makes `send` fail. -/
theorem nothing_sent :
    (emptyFile.sendOver ⟨[], none⟩ 296).1 = .ok () ∧
      (¬∃ records chunks, (emptyFile.sendOver ⟨[], none⟩ 296).2.written = [] ++ records.flatten ∧
        CarryFile emptyFile 296 records chunks) ∧
      (fileA.sendOver ⟨[], none⟩ 292).1 = .ok () ∧
      ¬∃ records chunks, (fileA.sendOver ⟨[], none⟩ 292).2.written = [] ++ records.flatten ∧
        CarryFile fileA 292 records chunks := by
  have empty : emptyFile.content = [] := rfl
  have large : datagramHeaderLen ≤ 296 := by decide
  have full : datagramHeaderLen ≤ 292 := by decide
  refine ⟨?_, emptyFile.sendOver_not_carries ⟨[], none⟩ large (Or.inl empty), ?_,
    fileA.sendOver_not_carries ⟨[], none⟩ full (Or.inr rfl)⟩
  · rw [emptyFile.sendOver_nothing ⟨[], none⟩ large (Or.inl empty)]
  · rw [fileA.sendOver_nothing ⟨[], none⟩ full (Or.inr rfl)]

end GarudaCodec.FileTransfer
