import GarudaCodec.Foundation.Readers
import GarudaCodec.Foundation.Chunks
import GarudaCodec.Foundation.PositionalWrites
import GarudaCodec.FileTransfer.Protocol
import GarudaCodec.FileTransfer.Paths

/-! # `transfer.rs`: sending a file

`send` reads a file through a buffer that is reused without being cleared, and writes for each read
one datagram: the header and the whole buffer.  `Sent` describes the datagrams of a file whatever
the sizes of the reads are, and `sendLoop_sent` that a loop that ends well has written them.
-/

namespace GarudaCodec.FileTransfer

open GarudaCodec.Foundation
open GarudaCodec.Foundation.Readers

inductive SendError where
  | invalidFilename
  | cannotConvertFilename
  | io (kind : ErrorKind)
  | tryFromInt
deriving DecidableEq, Repr

/-- A connected stream: what has been written, and how many more bytes it takes before it fails
    (`none` when it never does). -/
structure OutputStream where
  written : List UInt8
  room : Option Nat

def OutputStream.writeAll (stream : OutputStream) (bytes : List UInt8) :
    Except ErrorKind Unit × OutputStream :=
  match stream.room with
  | none => (.ok (), { stream with written := stream.written ++ bytes })
  | some room =>
    if bytes.length ≤ room then
      (.ok (), { written := stream.written ++ bytes, room := some (room - bytes.length) })
    else (.error .other, { written := stream.written ++ bytes.take room, room := some 0 })

/-- The two writes of one turn of the loop. -/
def sendChunk (header : DatagramHeader) (buffer : List UInt8) (stream : OutputStream) :
    Outcome SendError Unit × OutputStream :=
  match header.serialize with
  | none => (.panic, stream)
  | some headerBytes =>
    match stream.writeAll headerBytes with
    | (.error kind, stream) => (.err (.io kind), stream)
    | (.ok (), stream) =>
      match stream.writeAll buffer with
      | (.error kind, stream) => (.err (.io kind), stream)
      | (.ok (), stream) => (.ok (), stream)

/-- The loop of `send`; a read overwrites the front of the buffer and leaves its rest as it was. -/
def sendLoop (fileId : Uuid) (fileName : String) (fileLength : UInt64) (buffer : List UInt8)
    (offset : UInt64) (file : Reader) (stream : OutputStream) :
    Outcome SendError Unit × OutputStream :=
  match _reads : read file buffer.length with
  | (.err kind _, _) => (.err (.io kind), stream)
  | (.ok [], _) => (.ok (), stream)
  | (.ok (byte :: bytes), rest) =>
    let count := (byte :: bytes).length
    if UInt32.size ≤ count then (.err .tryFromInt, stream)
    else
      let buffer := (byte :: bytes) ++ buffer.drop count
      match sendChunk ⟨fileId, fileLength, offset, UInt32.ofNat count, fileName⟩ buffer stream with
      | (.ok (), stream) =>
        sendLoop fileId fileName fileLength buffer (offset + UInt64.ofNat count) rest stream
      | (failed, stream) => (failed, stream)
termination_by weight file
decreasing_by
  obtain ⟨-, empty | zero | less⟩ := read_weight _reads
  · simp at empty
  · have short := length_read_le _reads
    rw [zero] at short
    simp at short
  · exact less

/-- What `send` finds out before its loop: the file's name and length, and the opened file. -/
def sendSetup (filePath : Path) (metadata : Except ErrorKind UInt64)
    (opened : Except ErrorKind Reader) (blockSize : Nat) :
    Outcome SendError (String × UInt64 × Reader) := do
  let nameBytes ← Outcome.okOr .invalidFilename (Path.fileName filePath)
  let fileName ← Outcome.okOr .cannotConvertFilename (fromUtf8 nameBytes)
  let fileLength ← Outcome.ofExcept .io metadata
  let file ← Outcome.ofExcept .io opened
  -- `block_size - DATAGRAM_HEADER_LEN` underflows, or wraps to a capacity that `vec!` refuses
  if blockSize < datagramHeaderLen then .panic else return (fileName, fileLength, file)

def send (fileId : Uuid) (filePath : Path) (metadata : Except ErrorKind UInt64)
    (opened : Except ErrorKind Reader) (stream : OutputStream) (blockSize : Nat) :
    Outcome SendError Unit × OutputStream :=
  match sendSetup filePath metadata opened blockSize with
  | .ok (fileName, fileLength, file) =>
    sendLoop fileId fileName fileLength (List.replicate (blockSize - datagramHeaderLen) 0) 0 file
      stream
  | .err error => (.err error, stream)
  | .panic => (.panic, stream)

/-! ## Files as scripts of reads -/

/-- Reads of a file deliver bytes until its end, in any sizes, and do not fail. -/
def Readable (file : Reader) : Prop := ∀ event ∈ file, ∃ bytes, bytes ≠ [] ∧ event = .data bytes

theorem Readable.tail {event : ReadEvent} {file : Reader} (readable : Readable (event :: file)) :
    Readable file :=
  fun other member => readable other (List.mem_cons_of_mem _ member)

/-- A read of a file delivers its next bytes, none only at its end. -/
theorem Readable.read {file : Reader} (readable : Readable file) {len : Nat} (positive : 0 < len) :
    ∃ bytes rest, Readers.read file len = (.ok bytes, rest) ∧ Readable rest ∧
      contents file = bytes ++ contents rest ∧ (bytes = [] → contents file = []) := by
  cases file with
  | nil => exact ⟨[], [], rfl, readable, rfl, fun _ => rfl⟩
  | cons event file =>
    obtain ⟨bytes, nonempty, rfl⟩ := readable event List.mem_cons_self
    by_cases fits : bytes.length ≤ len
    · exact ⟨bytes, file, by rw [Readers.read, if_pos fits], readable.tail, rfl,
        fun empty => absurd empty nonempty⟩
    · refine ⟨bytes.take len, .data (bytes.drop len) :: file, by rw [Readers.read, if_neg fits],
        ?_, ?_, ?_⟩
      · intro other member
        cases member with
        | head => exact ⟨bytes.drop len, by simpa using fits, rfl⟩
        | tail _ inTail => exact readable.tail other inTail
      · rw [contents_data, contents_data, ← List.append_assoc, List.take_append_drop]
      · intro empty
        rcases List.take_eq_nil_iff.mp empty with zero | none
        · omega
        · exact absurd none nonempty

/-- Reads that refill the front of one buffer until the end of the file, and all they deliver. -/
inductive Refills : List UInt8 → Reader → List UInt8 → Prop
  | atEnd {buffer : List UInt8} {file rest : Reader} :
    Readers.read file buffer.length = (.ok [], rest) → Refills buffer file []
  | turn {buffer bytes data : List UInt8} {file rest : Reader} :
    Readers.read file buffer.length = (.ok bytes, rest) → bytes ≠ [] →
    (bytes ++ buffer.drop bytes.length).length = buffer.length →
    Refills (bytes ++ buffer.drop bytes.length) rest data → Refills buffer file (bytes ++ data)

/-- The reads of a file come to its end, and the buffer keeps its length. -/
theorem Readable.refills {file : Reader} (readable : Readable file) {buffer : List UInt8}
    (positive : 0 < buffer.length) : Refills buffer file (contents file) := by
  induction counted : (contents file).length using Nat.strong_induction_on
    generalizing buffer file with
  | h left inductionHypothesis =>
    obtain ⟨bytes, rest, reads, restReadable, content, atEnd⟩ := readable.read positive
    by_cases empty : bytes = []
    · subst empty
      rw [atEnd rfl]
      exact .atEnd reads
    · have fits := length_read_le reads
      have refilled : (bytes ++ buffer.drop bytes.length).length = buffer.length := by
        rw [List.length_append, List.length_drop]
        omega
      have consumed := List.length_pos_iff.mpr empty
      have shorter : (contents rest).length < left := by
        rw [← counted, content, List.length_append]
        omega
      rw [content]
      exact .turn reads empty refilled
        (inductionHypothesis _ shorter restReadable (refilled ▸ positive) rfl)

/-- A read into an empty buffer looks like the end of the file. -/
theorem Readable.read_zero {file : Reader} (readable : Readable file) :
    ∃ rest, Readers.read file 0 = (.ok [], rest) := by
  cases file with
  | nil => exact ⟨[], rfl⟩
  | cons event file =>
    obtain ⟨bytes, nonempty, rfl⟩ := readable event List.mem_cons_self
    refine ⟨.data bytes :: file, ?_⟩
    rw [Readers.read, if_neg (by simpa using nonempty), List.take_zero, List.drop_zero]

/-! ## The datagrams of a file -/

/-- A receiver reads this header from the datagram, and this payload behind it. -/
structure Carries (header : DatagramHeader) (payload datagram : List UInt8) : Prop where
  reads : DatagramHeader.deserialize datagram = .ok header
  carried : slice datagram datagramHeaderLen (datagramHeaderLen + header.payloadLength.toNat) =
    some payload

/-- The datagrams for the part of a file from an offset on, one for each read. -/
inductive Sent (fileId : Uuid) (fileName : String) (fileLength : UInt64) (blockSize : Nat) :
    Nat → List UInt8 → List (List UInt8) → Prop
  | done {offset : Nat} : Sent fileId fileName fileLength blockSize offset [] []
  | chunk {offset : Nat} {payload rest datagram : List UInt8} {datagrams : List (List UInt8)} :
    payload ≠ [] → datagram.length = blockSize →
    Carries ⟨fileId, fileLength, UInt64.ofNat offset, UInt32.ofNat payload.length,
      transmittedName fileName⟩ payload datagram →
    Sent fileId fileName fileLength blockSize (offset + payload.length) rest datagrams →
    Sent fileId fileName fileLength blockSize offset (payload ++ rest) (datagram :: datagrams)

theorem writeAll_ok {stream next : OutputStream} {bytes : List UInt8}
    (wrote : stream.writeAll bytes = (.ok (), next)) : next.written = stream.written ++ bytes := by
  rw [OutputStream.writeAll] at wrote
  split at wrote
  · cases wrote
    rfl
  · split at wrote
    · cases wrote
      rfl
    · cases wrote

theorem writeAll_unbounded {stream : OutputStream} (unbounded : stream.room = none)
    (bytes : List UInt8) :
    ∃ next, stream.writeAll bytes = (.ok (), next) ∧ next.room = none := by
  refine ⟨{ stream with written := stream.written ++ bytes }, ?_, unbounded⟩
  rw [OutputStream.writeAll, unbounded]

theorem sendChunk_ok {header : DatagramHeader} {buffer : List UInt8} {stream next : OutputStream}
    (sent : sendChunk header buffer stream = (.ok (), next)) :
    ∃ headerBytes, header.serialize = some headerBytes ∧
      next.written = stream.written ++ (headerBytes ++ buffer) := by
  rw [sendChunk] at sent
  split at sent
  · cases sent
  · next headerBytes serialized =>
    split at sent
    · cases sent
    · next between wroteHeader =>
      split at sent
      · cases sent
      · next last wroteBuffer =>
        cases sent
        refine ⟨headerBytes, serialized, ?_⟩
        rw [writeAll_ok wroteBuffer, writeAll_ok wroteHeader, List.append_assoc]

theorem sendChunk_unbounded {stream : OutputStream} (unbounded : stream.room = none)
    (header : DatagramHeader) (buffer : List UInt8) :
    ∃ next, sendChunk header buffer stream = (.ok (), next) ∧ next.room = none := by
  obtain ⟨headerBytes, serialized, -⟩ := header.deserialize_serialize
  obtain ⟨between, wroteHeader, betweenRoom⟩ := writeAll_unbounded unbounded headerBytes
  obtain ⟨next, wroteBuffer, nextRoom⟩ := writeAll_unbounded betweenRoom buffer
  refine ⟨next, ?_, nextRoom⟩
  simp only [sendChunk, serialized, wroteHeader, wroteBuffer]

theorem sendChunk_whole {header : DatagramHeader} {headerBytes : List UInt8}
    (serialized : header.serialize = some headerBytes) (buffer written : List UInt8) :
    sendChunk header buffer ⟨written, none⟩ =
      (.ok (), ⟨written ++ (headerBytes ++ buffer), none⟩) := by
  simp [sendChunk, serialized, OutputStream.writeAll]

/-- What the receiver finds in a serialised header with a padded payload behind it. -/
theorem carries_of_serialize {header : DatagramHeader} {headerBytes payload : List UInt8}
    (padding : List UInt8)
    (serialized : header.serialize = some headerBytes)
    (counted : header.payloadLength = UInt32.ofNat payload.length)
    (small : payload.length < UInt32.size) :
    headerBytes.length = datagramHeaderLen ∧
      Carries { header with fileName := transmittedName header.fileName } payload
        (headerBytes ++ (payload ++ padding)) := by
  obtain ⟨bytes, same, length, reads⟩ := header.deserialize_serialize
  obtain rfl : headerBytes = bytes := Option.some.inj (serialized.symm.trans same)
  refine ⟨length, reads _, ?_⟩
  have size : (UInt32.ofNat payload.length).toNat = payload.length := UInt32.toNat_ofNat_of_lt small
  simp only [counted, size]
  rw [slice_field (by simp only [List.length_append, length]; omega), field, List.drop_left' length,
    List.take_left' rfl]

/-! ## The loop -/

section Loop

variable {fileId : Uuid} {fileName : String} {fileLength : UInt64} {buffer : List UInt8}
  {offset : UInt64} {file rest : Reader} {stream : OutputStream} {bytes : List UInt8}

theorem sendLoop_end (reads : read file buffer.length = (.ok [], rest)) :
    sendLoop fileId fileName fileLength buffer offset file stream = (.ok (), stream) := by
  rw [sendLoop]
  split
  · next failed => simp [reads] at failed
  · rfl
  · next other => simp [reads] at other

theorem sendLoop_large (reads : read file buffer.length = (.ok bytes, rest))
    (large : UInt32.size ≤ bytes.length) :
    sendLoop fileId fileName fileLength buffer offset file stream = (.err .tryFromInt, stream) := by
  rw [sendLoop]
  split
  · next failed => simp [reads] at failed
  · next empty =>
    rw [reads] at empty
    cases empty
    exact absurd large (by decide)
  · next byte others after same =>
    rw [reads] at same
    cases same
    exact if_pos large

theorem sendLoop_step (reads : read file buffer.length = (.ok bytes, rest)) (nonempty : bytes ≠ [])
    (small : bytes.length < UInt32.size) :
    sendLoop fileId fileName fileLength buffer offset file stream =
      match sendChunk ⟨fileId, fileLength, offset, UInt32.ofNat bytes.length, fileName⟩
        (bytes ++ buffer.drop bytes.length) stream with
      | (.ok (), stream) =>
        sendLoop fileId fileName fileLength (bytes ++ buffer.drop bytes.length)
          (offset + UInt64.ofNat bytes.length) rest stream
      | (failed, stream) => (failed, stream) := by
  rw [sendLoop]
  split
  · next failed => simp [reads] at failed
  · next empty =>
    rw [reads] at empty
    cases empty
    exact absurd rfl nonempty
  · next byte others after same =>
    rw [reads] at same
    cases same
    exact if_neg (by omega)

/-- A read that fills the buffer leaves nothing in it of the reads before. -/
theorem sendLoop_full {headerBytes written : List UInt8} (nonempty : bytes ≠ [])
    (small : bytes.length < UInt32.size) (full : buffer.length = bytes.length)
    (serialized : DatagramHeader.serialize
      ⟨fileId, fileLength, offset, UInt32.ofNat bytes.length, fileName⟩ = some headerBytes) :
    sendLoop fileId fileName fileLength buffer offset (.data bytes :: file) ⟨written, none⟩ =
      sendLoop fileId fileName fileLength bytes (offset + UInt64.ofNat bytes.length) file
        ⟨written ++ (headerBytes ++ bytes), none⟩ := by
  have reads : read (.data bytes :: file) buffer.length = (.ok bytes, file) := by
    rw [Readers.read, if_pos (Nat.le_of_eq full.symm)]
  rw [sendLoop_step reads nonempty small, ← full, List.drop_length, List.append_nil, full,
    sendChunk_whole serialized]

/-- A loop that ends well has written the datagrams of the whole file. -/
theorem sendLoop_sent {start blockSize : Nat} (readable : Readable file)
    (positive : 0 < buffer.length) (size : datagramHeaderLen + buffer.length = blockSize)
    (well : (sendLoop fileId fileName fileLength buffer (UInt64.ofNat start) file stream).1 =
      .ok ()) :
    ∃ datagrams,
      (sendLoop fileId fileName fileLength buffer (UInt64.ofNat start) file stream).2.written =
        stream.written ++ datagrams.flatten ∧
      Sent fileId fileName fileLength blockSize start (contents file) datagrams := by
  have refills := readable.refills positive
  clear readable positive
  generalize contents file = data at refills ⊢
  induction refills generalizing start stream with
  | atEnd reads =>
    refine ⟨[], ?_, .done⟩
    rw [sendLoop_end reads, List.flatten_nil, List.append_nil]
  | @turn buffer bytes data file rest reads nonempty refilled _ inductionHypothesis =>
    have small : bytes.length < UInt32.size := by
      by_contra large
      rw [sendLoop_large reads (by omega)] at well
      cases well
    rw [sendLoop_step reads nonempty small] at well ⊢
    generalize chunk : sendChunk _ _ stream = outcome at well ⊢
    obtain ⟨result, next⟩ := outcome
    cases result with
    | err error => cases well
    | panic => cases well
    | ok value =>
      obtain ⟨headerBytes, serialized, wrote⟩ := sendChunk_ok chunk
      obtain ⟨headerSize, carries⟩ :=
        carries_of_serialize (buffer.drop bytes.length) serialized rfl small
      simp only [← UInt64.ofNat_add] at well ⊢
      obtain ⟨datagrams, written, sent⟩ := inductionHypothesis (by rw [refilled]; exact size) well
      refine ⟨(headerBytes ++ (bytes ++ buffer.drop bytes.length)) :: datagrams, ?_, ?_⟩
      · rw [written, wrote, List.flatten_cons, List.append_assoc]
      · refine .chunk nonempty ?_ carries sent
        rw [List.length_append, headerSize, refilled, size]

/-- Nothing fails when the stream takes everything and reads are short enough for a `u32`. -/
theorem sendLoop_ok (readable : Readable file) (positive : 0 < buffer.length)
    (small : buffer.length < UInt32.size) (unbounded : stream.room = none) :
    (sendLoop fileId fileName fileLength buffer offset file stream).1 = .ok () := by
  have refills := readable.refills positive
  clear readable positive
  generalize contents file = data at refills
  induction refills generalizing offset stream with
  | atEnd reads => rw [sendLoop_end reads]
  | @turn buffer bytes data file rest reads nonempty refilled _ inductionHypothesis =>
    obtain ⟨next, chunk, nextRoom⟩ := sendChunk_unbounded unbounded
      ⟨fileId, fileLength, offset, UInt32.ofNat bytes.length, fileName⟩
      (bytes ++ buffer.drop bytes.length)
    have fits := length_read_le reads
    rw [sendLoop_step reads nonempty (by omega), chunk]
    exact inductionHypothesis (by omega) nextRoom

end Loop

/-! ## What the datagrams of a file say -/

open GarudaCodec.Foundation.PositionalWrites (Within Covers)

theorem Carries.unique {header other : DatagramHeader} {payload carried datagram : List UInt8}
    (first : Carries header payload datagram) (second : Carries other carried datagram) :
    header = other ∧ payload = carried := by
  have same : header = other := Outcome.ok.inj (first.reads.symm.trans second.reads)
  subst same
  exact ⟨rfl, Option.some.inj (first.carried.symm.trans second.carried)⟩

section Sent

variable {fileId : Uuid} {fileName : String} {fileLength : UInt64} {blockSize offset : Nat}
  {data source : List UInt8} {datagrams : List (List UInt8)}

theorem Sent.length_mem (sent : Sent fileId fileName fileLength blockSize offset data datagrams) :
    ∀ datagram ∈ datagrams, datagram.length = blockSize := by
  induction sent with
  | done => simp
  | chunk nonempty size carries later inductionHypothesis =>
    exact List.forall_mem_cons.mpr ⟨size, inductionHypothesis⟩

theorem Sent.eq_nil_iff (sent : Sent fileId fileName fileLength blockSize offset data datagrams) :
    data = [] ↔ datagrams = [] := by
  cases sent with
  | done => simp
  | chunk nonempty => simp [nonempty]

/-- Every datagram carries a part of the file under the file's name. -/
theorem Sent.piece (sent : Sent fileId fileName fileLength blockSize offset data datagrams)
    (suffix : source.drop offset = data) (bounded : source.length < UInt64.size) :
    ∀ datagram ∈ datagrams, ∃ header payload, Carries header payload datagram ∧
      header.fileName = transmittedName fileName ∧ header.fileLength = fileLength ∧
      Within source (header.chunkOffset.toNat, payload) := by
  induction sent with
  | done => simp
  | @chunk offset payload rest datagram datagrams nonempty size carries later inductionHypothesis =>
    have fits : offset + payload.length ≤ source.length := by
      have length := congrArg List.length suffix
      rw [List.length_drop, List.length_append] at length
      have := List.length_pos_iff.mpr nonempty
      omega
    have restSuffix : source.drop (offset + payload.length) = rest := by
      rw [← List.drop_drop, suffix, List.drop_left]
    refine List.forall_mem_cons.mpr ⟨?_, inductionHypothesis restSuffix⟩
    refine ⟨_, payload, carries, rfl, rfl, fun idx inside => ?_⟩
    have position : (UInt64.ofNat offset).toNat = offset :=
      UInt64.toNat_ofNat_of_lt (by omega)
    simp only [position] at inside ⊢
    refine ⟨by omega, ?_⟩
    rw [← List.getElem?_drop, suffix, List.getElem?_append_left inside]

/-- Every byte of the file is in some datagram. -/
theorem Sent.covered (sent : Sent fileId fileName fileLength blockSize offset data datagrams)
    (bounded : offset + data.length < UInt64.size) :
    ∀ idx, offset ≤ idx → idx < offset + data.length →
      ∃ datagram ∈ datagrams, ∃ header payload, Carries header payload datagram ∧
        Covers (header.chunkOffset.toNat, payload) idx := by
  induction sent with
  | done =>
    intro idx low high
    simp at high
    omega
  | @chunk offset payload rest datagram datagrams nonempty size carries later inductionHypothesis =>
    intro idx low high
    rw [List.length_append] at bounded high
    have position : (UInt64.ofNat offset).toNat = offset := UInt64.toNat_ofNat_of_lt (by omega)
    rcases Nat.lt_or_ge idx (offset + payload.length) with here | there
    · refine ⟨datagram, List.mem_cons_self, _, payload, carries, ?_⟩
      simp only [Covers, position]
      exact ⟨low, here⟩
    · obtain ⟨other, member, found⟩ := inductionHypothesis (by omega) idx there (by omega)
      exact ⟨other, List.mem_cons_of_mem _ member, found⟩

end Sent

/-! ## A file and its transmission -/

/-- A file as `send` finds it: its path, its name, and the reads that deliver it. -/
structure SourceFile where
  fileId : Uuid
  filePath : Path
  fileName : String
  file : Reader
  named : Path.fileName filePath = some (asBytes fileName)
  readable : Readable file
  bounded : (contents file).length < UInt64.size

namespace SourceFile

def content (source : SourceFile) : List UInt8 := contents source.file

def fileLength (source : SourceFile) : UInt64 := UInt64.ofNat source.content.length

/-- A run of `send` over a stream that does not fail. -/
def send (source : SourceFile) (blockSize : Nat) : Outcome SendError Unit × OutputStream :=
  FileTransfer.send source.fileId source.filePath (.ok source.fileLength) (.ok source.file)
    ⟨[], none⟩ blockSize

/-- What is sent for the file, cut into datagrams. -/
def datagrams (source : SourceFile) (blockSize : Nat) : List (List UInt8) :=
  Chunks.chunksExact blockSize (source.send blockSize).2.written

/-- A run of `send` over any connected stream. -/
def sendOver (source : SourceFile) (stream : OutputStream) (blockSize : Nat) :
    Outcome SendError Unit × OutputStream :=
  FileTransfer.send source.fileId source.filePath (.ok source.fileLength) (.ok source.file) stream
    blockSize

theorem sendSetup_eq (source : SourceFile) (blockSize : Nat) :
    sendSetup source.filePath (.ok source.fileLength) (.ok source.file) blockSize =
      if blockSize < datagramHeaderLen then .panic
      else .ok (source.fileName, source.fileLength, source.file) := by
  simp only [sendSetup, source.named, Outcome.okOr_some, Outcome.bind_ok, fromUtf8_asBytes,
    Outcome.ofExcept_ok]
  rfl

theorem sendOver_small (source : SourceFile) (stream : OutputStream) {blockSize : Nat}
    (small : blockSize < datagramHeaderLen) :
    source.sendOver stream blockSize = (.panic, stream) := by
  rw [sendOver, FileTransfer.send, sendSetup_eq, if_pos small]

theorem sendOver_eq (source : SourceFile) (stream : OutputStream) {blockSize : Nat}
    (large : datagramHeaderLen ≤ blockSize) :
    source.sendOver stream blockSize = sendLoop source.fileId source.fileName source.fileLength
      (List.replicate (blockSize - datagramHeaderLen) 0) (UInt64.ofNat 0) source.file stream := by
  rw [sendOver, FileTransfer.send, sendSetup_eq, if_neg (by omega)]
  rfl

theorem send_eq (source : SourceFile) {blockSize : Nat} (large : datagramHeaderLen < blockSize) :
    source.send blockSize = sendLoop source.fileId source.fileName source.fileLength
      (List.replicate (blockSize - datagramHeaderLen) 0) (UInt64.ofNat 0) source.file
        ⟨[], none⟩ :=
  source.sendOver_eq ⟨[], none⟩ (Nat.le_of_lt large)

theorem send_ok (source : SourceFile) {blockSize : Nat} (large : datagramHeaderLen < blockSize)
    (small : blockSize - datagramHeaderLen < UInt32.size) : (source.send blockSize).1 = .ok () := by
  rw [source.send_eq large]
  exact sendLoop_ok source.readable (by rw [List.length_replicate]; omega)
    (by rw [List.length_replicate]; exact small) rfl

theorem sent (source : SourceFile) {blockSize : Nat} (large : datagramHeaderLen < blockSize)
    (well : (source.send blockSize).1 = .ok ()) :
    Sent source.fileId source.fileName source.fileLength blockSize 0 source.content
      (source.datagrams blockSize) := by
  rw [source.send_eq large] at well
  obtain ⟨datagrams, written, sent⟩ := sendLoop_sent source.readable
    (by rw [List.length_replicate]; omega)
    (by rw [List.length_replicate]; omega : _ = blockSize) well
  have same : source.datagrams blockSize = datagrams := by
    rw [SourceFile.datagrams, source.send_eq large, written, List.nil_append,
      ← List.append_nil datagrams.flatten]
    exact Chunks.chunksExact_flatten sent.length_mem (Nat.lt_of_le_of_lt (Nat.zero_le _) large)
  rw [same]
  exact sent

end SourceFile

end GarudaCodec.FileTransfer
