import GarudaCodec.FileTransfer.Receiving

/-! # Sending over connections that break

A connection may break anywhere, and `send` then returns an error.  What it has written up to there
is the front of what it would have written (`send_breaks`), and as the receiver reads whole
datagrams only and `send` sends a file from its beginning on, any number of attempts leave a front
of the file over what was there, the longest one that got through (`attempts_leave_front`).
-/

namespace GarudaCodec.FileTransfer

open GarudaCodec.Foundation
open GarudaCodec.Foundation.Chunks
open GarudaCodec.Foundation.Readers
open GarudaCodec.Foundation.PositionalWrites

/-! ## What is written before a connection breaks -/

/-- A run over a stream that breaks does what a run over a whole one does, as far as there is
    room. -/
structure BreaksOff (written : List UInt8) (room : Nat)
    (whole broken : Outcome SendError Unit × OutputStream) (more : List UInt8) : Prop where
  through : whole.2 = ⟨written ++ more, none⟩
  front : broken.2.written = written ++ more.take room
  result : broken.1 = if more.length ≤ room then whole.1 else .err (.io .other)

theorem BreaksOff.nothing (written : List UInt8) (room : Nat) (result : Outcome SendError Unit) :
    BreaksOff written room (result, ⟨written, none⟩) (result, ⟨written, some room⟩) [] where
  through := by simp
  front := by simp
  result := by simp

theorem sendChunk_room {header : DatagramHeader} {headerBytes buffer : List UInt8} {room : Nat}
    (serialized : header.serialize = some headerBytes) (written : List UInt8)
    (fits : (headerBytes ++ buffer).length ≤ room) :
    sendChunk header buffer ⟨written, some room⟩ = (.ok (), ⟨written ++ (headerBytes ++ buffer),
      some (room - (headerBytes ++ buffer).length)⟩) := by
  rw [List.length_append] at fits
  have headerFits : headerBytes.length ≤ room := by omega
  have bufferFits : buffer.length ≤ room - headerBytes.length := by omega
  simp [sendChunk, serialized, OutputStream.writeAll, headerFits, bufferFits, Nat.sub_sub]

theorem sendChunk_breaks {header : DatagramHeader} {headerBytes buffer : List UInt8} {room : Nat}
    (serialized : header.serialize = some headerBytes) (written : List UInt8)
    (breaks : room < (headerBytes ++ buffer).length) :
    sendChunk header buffer ⟨written, some room⟩ =
      (.err (.io .other), ⟨written ++ (headerBytes ++ buffer).take room, some 0⟩) := by
  rw [List.length_append] at breaks
  by_cases headerFits : headerBytes.length ≤ room
  · have bufferBreaks : ¬buffer.length ≤ room - headerBytes.length := by omega
    simp [sendChunk, serialized, OutputStream.writeAll, headerFits, bufferBreaks,
      List.take_append, List.take_of_length_le headerFits]
  · have inHeader : room - headerBytes.length = 0 := by omega
    simp [sendChunk, serialized, OutputStream.writeAll, headerFits, List.take_append, inHeader]

theorem sendLoop_fail {fileId : Uuid} {fileName : String} {fileLength : UInt64}
    {buffer : List UInt8} {offset : UInt64} {file rest : Reader} {stream : OutputStream}
    {kind : ErrorKind} {stopReading : Bool}
    (reads : read file buffer.length = (.err kind stopReading, rest)) :
    sendLoop fileId fileName fileLength buffer offset file stream = (.err (.io kind), stream) := by
  rw [sendLoop]
  split
  · next failed =>
    rw [reads] at failed
    cases failed
    rfl
  · next other => simp [reads] at other
  · next other => simp [reads] at other

/-- What is written in one turn comes before what is written later. -/
theorem BreaksOff.later {written turn more : List UInt8} {room : Nat}
    {whole broken : Outcome SendError Unit × OutputStream} (fits : turn.length ≤ room)
    (later : BreaksOff (written ++ turn) (room - turn.length) whole broken more) :
    BreaksOff written room whole broken (turn ++ more) where
  through := by rw [later.through, List.append_assoc]
  front := by
    rw [later.front, List.append_assoc, List.take_append, List.take_of_length_le fits]
  result := by
    have same : (turn ++ more).length ≤ room ↔ more.length ≤ room - turn.length := by
      rw [List.length_append]
      omega
    simp only [later.result, same]

/-- A stream that breaks in one turn does not get to the later ones. -/
theorem BreaksOff.now {written turn more : List UInt8} {room : Nat}
    {whole : Outcome SendError Unit × OutputStream} (breaks : room < turn.length)
    (through : whole.2 = ⟨written ++ turn ++ more, none⟩) :
    BreaksOff written room whole (.err (.io .other), ⟨written ++ turn.take room, some 0⟩)
      (turn ++ more) where
  through := by rw [through, List.append_assoc]
  front := by rw [List.take_append_of_le_length (by omega)]
  result := by
    have long : ¬(turn ++ more).length ≤ room := by
      rw [List.length_append]
      omega
    rw [if_neg long]

/-- For every file, whether or not its reads fail, and wherever the stream breaks. -/
theorem sendLoop_breaks (fileId : Uuid) (fileName : String) (fileLength : UInt64)
    (buffer : List UInt8) (offset : UInt64) (file : Reader) (written : List UInt8) (room : Nat) :
    ∃ more, BreaksOff written room
      (sendLoop fileId fileName fileLength buffer offset file ⟨written, none⟩)
      (sendLoop fileId fileName fileLength buffer offset file ⟨written, some room⟩) more := by
  induction weighed : weight file using Nat.strong_induction_on
    generalizing buffer offset file written room with
  | h weighs inductionHypothesis =>
    generalize reads : read file buffer.length = outcome
    obtain ⟨result, rest⟩ := outcome
    cases result with
    | err kind stopReading =>
      rw [sendLoop_fail reads, sendLoop_fail reads]
      exact ⟨[], .nothing written room _⟩
    | ok bytes =>
      by_cases empty : bytes = []
      · subst empty
        rw [sendLoop_end reads, sendLoop_end reads]
        exact ⟨[], .nothing written room _⟩
      by_cases large : UInt32.size ≤ bytes.length
      · rw [sendLoop_large reads large, sendLoop_large reads large]
        exact ⟨[], .nothing written room _⟩
      have lighter : weight rest < weighs := by
        obtain ⟨-, isEmpty | zero | less⟩ := read_weight reads
        · simp [empty] at isEmpty
        · have short := length_read_le reads
          simp [zero, empty] at short
        · exact weighed ▸ less
      obtain ⟨headerBytes, serialized, -⟩ := DatagramHeader.deserialize_serialize
        ⟨fileId, fileLength, offset, UInt32.ofNat bytes.length, fileName⟩
      rw [sendLoop_step reads empty (by omega), sendLoop_step reads empty (by omega),
        sendChunk_whole serialized]
      obtain ⟨more, later⟩ := inductionHypothesis _ lighter (bytes ++ buffer.drop bytes.length)
        (offset + UInt64.ofNat bytes.length) rest
        (written ++ (headerBytes ++ (bytes ++ buffer.drop bytes.length)))
        (room - (headerBytes ++ (bytes ++ buffer.drop bytes.length)).length) rfl
      by_cases fits : (headerBytes ++ (bytes ++ buffer.drop bytes.length)).length ≤ room
      · rw [sendChunk_room serialized written fits]
        exact ⟨_, later.later fits⟩
      · rw [sendChunk_breaks serialized written (Nat.lt_of_not_le fits)]
        exact ⟨_, .now (Nat.lt_of_not_le fits) later.through⟩

theorem breaksOff_send (fileId : Uuid) (filePath : Path) (metadata : Except ErrorKind UInt64)
    (opened : Except ErrorKind Reader) (blockSize room : Nat) :
    BreaksOff [] room (send fileId filePath metadata opened ⟨[], none⟩ blockSize)
      (send fileId filePath metadata opened ⟨[], some room⟩ blockSize)
      (send fileId filePath metadata opened ⟨[], none⟩ blockSize).2.written := by
  cases setup : sendSetup filePath metadata opened blockSize with
  | err error =>
    simp only [send, setup]
    exact .nothing [] room _
  | panic =>
    simp only [send, setup]
    exact .nothing [] room _
  | ok found =>
    obtain ⟨fileName, fileLength, file⟩ := found
    obtain ⟨more, breaks⟩ := sendLoop_breaks fileId fileName fileLength
      (List.replicate (blockSize - datagramHeaderLen) 0) 0 file [] room
    have written := congrArg OutputStream.written breaks.through
    simp only [send, setup, written]
    exact breaks

/-- For every file, whether or not its reads fail, and wherever the connection breaks: `send` has
    written the front of what it would have written, and fails exactly if this is not all. -/
theorem send_breaks (fileId : Uuid) (filePath : Path) (metadata : Except ErrorKind UInt64)
    (opened : Except ErrorKind Reader) (blockSize room : Nat) :
    (send fileId filePath metadata opened ⟨[], some room⟩ blockSize).2.written =
        (send fileId filePath metadata opened ⟨[], none⟩ blockSize).2.written.take room ∧
      (send fileId filePath metadata opened ⟨[], some room⟩ blockSize).1 =
        if (send fileId filePath metadata opened ⟨[], none⟩ blockSize).2.written.length ≤ room then
          (send fileId filePath metadata opened ⟨[], none⟩ blockSize).1
        else .err (.io .other) := by
  have breaks := breaksOff_send fileId filePath metadata opened blockSize room
  exact ⟨breaks.front, breaks.result⟩

/-! ## What a receiver gets of it -/

/-- A receiver reads the complete chunks of what a connection delivers. -/
theorem received_eq_chunksExact {blockSize : Nat} (positive : 0 < blockSize) {stream : Reader}
    (quiet : Quiet onReadError stream) :
    received blockSize stream = chunksExact blockSize (contents stream) := by
  have sizes : ∀ chunk ∈ chunksExact blockSize (contents stream), chunk.length = blockSize := by
    intro chunk member
    obtain ⟨idx, inside, rfl⟩ := List.mem_map.mp member
    exact length_chunkAt (List.mem_range.mp inside)
  have split : contents stream = (chunksExact blockSize (contents stream)).flatten ++
      (contents stream).drop ((contents stream).length / blockSize * blockSize) := by
    rw [chunksExact, flatten_chunks, List.take_append_drop]
  have short : ((contents stream).drop
      ((contents stream).length / blockSize * blockSize)).length < blockSize := by
    have remainder := Nat.mod_lt (contents stream).length positive
    have whole := Nat.div_add_mod' (contents stream).length blockSize
    rw [List.length_drop]
    omega
  exact received_broken quiet positive sizes split short

/-- Where the datagrams of a file are divided, the file is divided. -/
theorem Sent.split {fileId : Uuid} {fileName : String} {fileLength : UInt64}
    {blockSize offset : Nat} {data : List UInt8} {front back : List (List UInt8)}
    (sent : Sent fileId fileName fileLength blockSize offset data (front ++ back)) :
    ∃ part rest, data = part ++ rest ∧
      Sent fileId fileName fileLength blockSize offset part front ∧
      Sent fileId fileName fileLength blockSize (offset + part.length) rest back := by
  induction front generalizing offset data with
  | nil => exact ⟨[], data, rfl, .done, sent⟩
  | cons first front inductionHypothesis =>
    cases sent with
    | @chunk offset payload rest datagram datagrams nonempty size carries later =>
      obtain ⟨part, rest, rfl, sentFront, sentBack⟩ := inductionHypothesis later
      refine ⟨payload ++ part, rest, (List.append_assoc ..).symm,
        .chunk nonempty size carries sentFront, ?_⟩
      rwa [List.length_append, ← Nat.add_assoc]

/-- An attempt to send a file, over a connection that breaks after so many bytes if at all. -/
structure Attempt where
  source : SourceFile
  room : Option Nat

namespace Attempt

variable {blockSize : Nat} {attempt : Attempt}

def send (attempt : Attempt) (blockSize : Nat) : Outcome SendError Unit × OutputStream :=
  attempt.source.sendOver ⟨[], attempt.room⟩ blockSize

/-- The datagrams that a receiver reads. -/
def datagrams (attempt : Attempt) (blockSize : Nat) : List (List UInt8) :=
  chunksExact blockSize (attempt.send blockSize).2.written

/-- The datagrams that a receiver reads carry this much of the file. -/
def GetsThrough (attempt : Attempt) (blockSize : Nat) (part : List UInt8) : Prop :=
  Sent attempt.source.fileId attempt.source.fileName attempt.source.fileLength blockSize 0 part
    (attempt.datagrams blockSize)

theorem written_prefix (attempt : Attempt) (blockSize : Nat) :
    (attempt.send blockSize).2.written <+: (attempt.source.send blockSize).2.written := by
  obtain ⟨source, room⟩ := attempt
  cases room with
  | none => exact List.prefix_rfl
  | some room =>
    have front := (breaksOff_send source.fileId source.filePath (.ok source.fileLength)
      (.ok source.file) blockSize room).front
    exact front ▸ List.take_prefix room _

theorem datagrams_prefix (attempt : Attempt) (blockSize : Nat) :
    attempt.datagrams blockSize <+: attempt.source.datagrams blockSize := by
  obtain ⟨later, whole⟩ := attempt.written_prefix blockSize
  rw [SourceFile.datagrams, ← whole]
  exact chunksExact_prefix blockSize _ later

theorem exists_getsThrough (attempt : Attempt) (large : datagramHeaderLen < blockSize)
    (small : blockSize - datagramHeaderLen < UInt32.size) :
    ∃ part, part <+: attempt.source.content ∧ attempt.GetsThrough blockSize part := by
  have sent := attempt.source.sent large (attempt.source.send_ok large small)
  obtain ⟨back, whole⟩ := attempt.datagrams_prefix blockSize
  obtain ⟨part, rest, content, through, -⟩ := Sent.split (whole ▸ sent)
  exact ⟨part, content ▸ List.prefix_append part rest, through⟩

/-- An attempt that ends well gets the whole file through. -/
theorem getsThrough_of_ok (large : datagramHeaderLen < blockSize)
    (small : blockSize - datagramHeaderLen < UInt32.size)
    (well : (attempt.send blockSize).1 = .ok ()) :
    attempt.GetsThrough blockSize attempt.source.content := by
  have whole : (attempt.send blockSize).2.written = (attempt.source.send blockSize).2.written := by
    obtain ⟨source, room⟩ := attempt
    cases room with
    | none => rfl
    | some room =>
      have breaks := breaksOff_send source.fileId source.filePath (.ok source.fileLength)
        (.ok source.file) blockSize room
      have fits : (source.send blockSize).2.written.length ≤ room := by
        by_contra long
        have failed : (Attempt.send ⟨source, some room⟩ blockSize).1 = .err (.io .other) :=
          breaks.result.trans (if_neg long)
        rw [failed] at well
        cases well
      exact breaks.front.trans (List.take_of_length_le fits)
  rw [GetsThrough, datagrams, whole]
  exact attempt.source.sent large (attempt.source.send_ok large small)

/-- Exactly the bytes of this much of the file are in the datagrams. -/
theorem GetsThrough.hasByte {part : List UInt8} (through : attempt.GetsThrough blockSize part)
    (bounded : part.length < UInt64.size) (idx : Nat) :
    (∃ datagram ∈ attempt.datagrams blockSize, HasByte datagram idx) ↔ idx < part.length := by
  constructor
  · intro ⟨datagram, member, header, payload, carries, covers⟩
    have suffix : part.drop 0 = part := List.drop_zero
    obtain ⟨other, carried, otherCarries, -, -, within⟩ :=
      through.piece suffix bounded datagram member
    obtain ⟨rfl, rfl⟩ := carries.unique otherCarries
    obtain ⟨low, high⟩ := covers
    have inside := (within (idx - header.chunkOffset.toNat) (by simp only at high ⊢; omega)).1
    simp only at low inside
    omega
  · intro inside
    obtain ⟨datagram, member, header, payload, carries, covers⟩ := through.covered
      (by simpa using bounded) idx (Nat.zero_le idx) (by simpa using inside)
    exact ⟨datagram, member, header, payload, carries, covers⟩

end Attempt

/-! ## Attempts at one file -/

/-- Of fronts of one list, one has all others as its fronts. -/
theorem exists_longest {α β : Type*} {whole : List α} {list : List β} {part : β → List α}
    (fronts : ∀ value ∈ list, part value <+: whole) :
    ∃ front, front <+: whole ∧ (front = [] ∨ ∃ value ∈ list, front = part value) ∧
      ∀ value ∈ list, part value <+: front := by
  induction list with
  | nil => exact ⟨[], List.nil_prefix, Or.inl rfl, by simp⟩
  | cons value list inductionHypothesis =>
    obtain ⟨first, later⟩ := List.forall_mem_cons.mp fronts
    obtain ⟨front, isFront, isPart, longest⟩ := inductionHypothesis later
    cases List.prefix_or_prefix_of_prefix first isFront with
    | inl shorter =>
      refine ⟨front, isFront, ?_, List.forall_mem_cons.mpr ⟨shorter, longest⟩⟩
      cases isPart with
      | inl empty => exact Or.inl empty
      | inr found =>
        obtain ⟨other, member, same⟩ := found
        exact Or.inr ⟨other, List.mem_cons_of_mem _ member, same⟩
    | inr longer =>
      refine ⟨part value, first, Or.inr ⟨value, List.mem_cons_self, rfl⟩, ?_⟩
      exact List.forall_mem_cons.mpr
        ⟨List.prefix_rfl, fun other member => (longest other member).trans longer⟩

variable {fs : FileSystem} {outputPath : Path} {blockSize : Nat}

/-- Where the receiver writes what comes under this name. -/
def destinationOf (outputPath : Path) (fileName : String) : Path :=
  Path.join outputPath (asBytes (transmittedName fileName))

/-- A connection delivers what an attempt has written to it, and then ends. -/
def Delivers (blockSize : Nat) (attempt : Attempt) (connection : Except ErrorKind Reader) : Prop :=
  ∃ stream, connection = .ok stream ∧ Quiet onReadError stream ∧
    contents stream = (attempt.send blockSize).2.written

theorem receivedOver_attempts {attempts : List Attempt}
    {connections : List (Except ErrorKind Reader)} (positive : 0 < blockSize)
    (delivers : List.Forall₂ (Delivers blockSize) attempts connections) :
    receivedOver blockSize connections =
      attempts.flatMap fun attempt => attempt.datagrams blockSize := by
  induction delivers with
  | nil => rfl
  | cons delivered later inductionHypothesis =>
    obtain ⟨stream, rfl, quiet, content⟩ := delivered
    rw [receivedOver, served, List.flatMap_cons, ← receivedOver, inductionHypothesis,
      List.flatMap_cons, received_eq_chunksExact positive quiet, content, Attempt.datagrams]

/-- Attempts to send the same file under the same name. -/
structure AttemptsAt (fs : FileSystem) (outputPath : Path) (blockSize : Nat) (fileName : String)
    (content : List UInt8) (attempts : List Attempt) : Prop where
  large : datagramHeaderLen < blockSize
  small : blockSize - datagramHeaderLen < UInt32.size
  same : ∀ attempt ∈ attempts, attempt.source.fileName = fileName ∧
    attempt.source.content = content
  accepts : fs.Accepts outputPath (attempts.flatMap fun attempt => attempt.datagrams blockSize)

namespace AttemptsAt

variable {fileName : String} {content : List UInt8} {attempts : List Attempt}

/-- What the receiver does with a datagram that it gets. -/
theorem handles (attemptsAt : AttemptsAt fs outputPath blockSize fileName content attempts)
    {datagram : List UInt8}
    (arrived : datagram ∈ attempts.flatMap fun attempt => attempt.datagrams blockSize) :
    ∃ header payload, Carries header payload datagram ∧
      Within content (header.chunkOffset.toNat, payload) ∧
      handleDatagram fs outputPath datagram =
        ([⟨destinationOf outputPath fileName, header.chunkOffset, payload⟩], .ok ()) := by
  obtain ⟨attempt, member, sent⟩ := List.mem_flatMap.mp arrived
  obtain ⟨rfl, rfl⟩ := attemptsAt.same attempt member
  obtain ⟨header, payload, carries, -, within, handled⟩ := attempt.source.handleDatagram_eq
    attemptsAt.large (attempt.source.send_ok attemptsAt.large attemptsAt.small)
    ((attempt.datagrams_prefix blockSize).subset sent) attemptsAt.accepts arrived
  exact ⟨header, payload, carries, within, handled⟩

theorem goOn (attemptsAt : AttemptsAt fs outputPath blockSize fileName content attempts) :
    ∀ datagram ∈ attempts.flatMap fun attempt => attempt.datagrams blockSize,
      ¬Stops fs outputPath datagram := by
  intro datagram arrived
  obtain ⟨header, payload, -, -, handled⟩ := attemptsAt.handles arrived
  rw [← handleDatagram_goesOn, handled]

theorem mem_under (attemptsAt : AttemptsAt fs outputPath blockSize fileName content attempts)
    {write : Write UInt8} :
    write ∈ under (Path.components (destinationOf outputPath fileName))
        ((Transferred.writes fs outputPath
          (attempts.flatMap fun attempt => attempt.datagrams blockSize)).map FileWrite.onDisk) ↔
      ∃ datagram ∈ attempts.flatMap fun attempt => attempt.datagrams blockSize,
        ∃ header payload, Carries header payload datagram ∧
          write = (header.chunkOffset.toNat, payload) := by
  rw [PositionalWrites.mem_under, Transferred.writes]
  constructor
  · intro inPuts
    obtain ⟨made, inWrites, put⟩ := List.mem_map.mp inPuts
    obtain ⟨datagram, arrived, inTurn⟩ := List.mem_flatMap.mp inWrites
    obtain ⟨header, payload, carries, -, handled⟩ := attemptsAt.handles arrived
    rw [handled] at inTurn
    cases List.mem_singleton.mp inTurn
    exact ⟨datagram, arrived, header, payload, carries, (Prod.mk.inj put).2.symm⟩
  · intro isHeld
    obtain ⟨datagram, arrived, header, payload, carries, isWrite⟩ := isHeld
    obtain ⟨other, carried, otherCarries, -, handled⟩ := attemptsAt.handles arrived
    obtain ⟨rfl, rfl⟩ := carries.unique otherCarries
    refine List.mem_map.mpr ⟨⟨destinationOf outputPath fileName, header.chunkOffset, payload⟩,
      List.mem_flatMap.mpr ⟨datagram, arrived, ?_⟩, ?_⟩
    · rw [handled]
      exact List.mem_singleton_self _
    · rw [isWrite]
      rfl

/-- What has got through patches the file into what was there. -/
theorem patched (attemptsAt : AttemptsAt fs outputPath blockSize fileName content attempts)
    (disk : Disk) :
    Patched 0 content
      (fun idx => ∃ datagram ∈ attempts.flatMap fun attempt => attempt.datagrams blockSize,
        HasByte datagram idx)
      ((disk (Path.components (destinationOf outputPath fileName))).getD [])
      ((disk.after (Transferred.writes fs outputPath
          (attempts.flatMap fun attempt => attempt.datagrams blockSize))
        (Path.components (destinationOf outputPath fileName))).getD []) := by
  -- all arrivals are meant for the one file
  refine Patched.congr
    (patched_of_arrivals (fun _ => True) (fun _ => attemptsAt.mem_under.trans ?_) ?_ disk) ?_
  · simp
  · intro datagram arrived _
    obtain ⟨header, payload, carries, within, -⟩ := attemptsAt.handles arrived
    exact ⟨header, payload, carries, within⟩
  · simp

/-- When a front of the file is what has got through, it is put over what was there; without a
    datagram that gets through, the file is left alone or missing. -/
theorem after_front (attemptsAt : AttemptsAt fs outputPath blockSize fileName content attempts)
    (disk : Disk) {front : List UInt8} (isFront : front <+: content)
    (bytes : ∀ idx, (∃ datagram ∈ attempts.flatMap fun attempt => attempt.datagrams blockSize,
      HasByte datagram idx) ↔ idx < front.length) :
    disk.after (Transferred.writes fs outputPath
        (attempts.flatMap fun attempt => attempt.datagrams blockSize))
        (Path.components (destinationOf outputPath fileName)) =
      if front = [] then disk (Path.components (destinationOf outputPath fileName))
      else some (front ++
        ((disk (Path.components (destinationOf outputPath fileName))).getD []).drop
          front.length) := by
  have holds := (attemptsAt.patched disk).front isFront bytes
  rw [Disk.after] at holds
  rw [Disk.after, Store.putAll_eq_ite holds]
  refine if_congr ?_ rfl rfl
  rw [List.eq_nil_iff_forall_not_mem]
  simp only [attemptsAt.mem_under]
  constructor
  · intro nothing
    by_contra nonempty
    obtain ⟨datagram, arrived, header, payload, carries, -⟩ :=
      (bytes 0).mpr (List.length_pos_iff.mpr nonempty)
    exact nothing _ ⟨datagram, arrived, header, payload, carries, rfl⟩
  · rintro rfl write ⟨datagram, arrived, -⟩
    obtain ⟨attempt, -, sent⟩ := List.mem_flatMap.mp arrived
    obtain ⟨idx, hasByte⟩ := (attempt.source.sent attemptsAt.large
      (attempt.source.send_ok attemptsAt.large attemptsAt.small)).hasByte datagram
        ((attempt.datagrams_prefix blockSize).subset sent)
    exact Nat.not_lt_zero idx ((bytes idx).mp ⟨datagram, arrived, hasByte⟩)

/-- What the receiver writes when it gets what the attempts have written. -/
theorem writes (attemptsAt : AttemptsAt fs outputPath blockSize fileName content attempts)
    {connections : List (Except ErrorKind Reader)}
    (delivers : List.Forall₂ (Delivers blockSize) attempts connections) :
    (receive fs (.ok ()) (.ok connections) outputPath blockSize).1 =
      Transferred.writes fs outputPath
        (attempts.flatMap fun attempt => attempt.datagrams blockSize) := by
  have positive := Nat.zero_lt_of_lt attemptsAt.large
  have read := receivedOver_attempts positive delivers
  rw [← read]
  exact receiveLoop_writes positive (read ▸ attemptsAt.goOn)

/-- No other file is touched. -/
theorem after_other (attemptsAt : AttemptsAt fs outputPath blockSize fileName content attempts)
    (disk : Disk) {place : List Component}
    (other : place ≠ Path.components (destinationOf outputPath fileName)) :
    disk.after (Transferred.writes fs outputPath
      (attempts.flatMap fun attempt => attempt.datagrams blockSize)) place = disk place := by
  apply Disk.after_other
  intro write made
  obtain ⟨datagram, arrived, inTurn⟩ := List.mem_flatMap.mp made
  obtain ⟨header, payload, -, -, handled⟩ := attemptsAt.handles arrived
  rw [handled] at inTurn
  cases List.mem_singleton.mp inTurn
  exact other

end AttemptsAt

/-- Any number of attempts to send a file, each over a connection that breaks anywhere or not at
    all: the receiver ends up with a front of the file over what was there, the longest that one of
    them got through in whole datagrams, and that is the whole file if one of them ended well. -/
theorem attempts_leave_front (large : datagramHeaderLen < blockSize)
    (small : blockSize - datagramHeaderLen < UInt32.size) {fileName : String}
    {content : List UInt8} {attempts : List Attempt} {connections : List (Except ErrorKind Reader)}
    (same : ∀ attempt ∈ attempts, attempt.source.fileName = fileName ∧
      attempt.source.content = content)
    (accepts : fs.Accepts outputPath (receivedOver blockSize connections))
    (delivers : List.Forall₂ (Delivers blockSize) attempts connections) (disk : Disk) :
    (∃ front, front <+: content ∧
      disk.after (receive fs (.ok ()) (.ok connections) outputPath blockSize).1
          (Path.components (destinationOf outputPath fileName)) =
        (if front = [] then disk (Path.components (destinationOf outputPath fileName))
        else some (front ++
          ((disk (Path.components (destinationOf outputPath fileName))).getD []).drop
            front.length)) ∧
      (front = [] ∨ ∃ attempt ∈ attempts, attempt.GetsThrough blockSize front) ∧
      (∀ attempt ∈ attempts, ∃ part, attempt.GetsThrough blockSize part ∧ part <+: front) ∧
      ((∃ attempt ∈ attempts, (attempt.send blockSize).1 = .ok ()) → front = content)) ∧
      ∀ place, place ≠ Path.components (destinationOf outputPath fileName) →
        disk.after (receive fs (.ok ()) (.ok connections) outputPath blockSize).1 place =
          disk place := by
  have attemptsAt : AttemptsAt fs outputPath blockSize fileName content attempts :=
    { large, small, same
      accepts := receivedOver_attempts (Nat.zero_lt_of_lt large) delivers ▸ accepts }
  rw [attemptsAt.writes delivers]
  refine ⟨?_, fun place other => attemptsAt.after_other disk other⟩
  choose part isPart through using fun attempt : Attempt =>
    attempt.exists_getsThrough large small
  have fronts : ∀ attempt ∈ attempts, part attempt <+: content := by
    intro attempt member
    rw [← (same attempt member).2]
    exact isPart attempt
  have bounded : ∀ attempt ∈ attempts, content.length < UInt64.size := by
    intro attempt member
    rw [← (same attempt member).2]
    exact attempt.source.bounded
  obtain ⟨front, isFront, isLongest, longest⟩ := exists_longest fronts
  have byte : ∀ attempt ∈ attempts, ∀ idx,
      (∃ datagram ∈ attempt.datagrams blockSize, HasByte datagram idx) ↔
        idx < (part attempt).length := by
    intro attempt member
    exact (through attempt).hasByte
      (Nat.lt_of_le_of_lt (fronts attempt member).length_le (bounded attempt member))
  refine ⟨front, isFront, attemptsAt.after_front disk isFront fun idx => ?_, ?_, ?_, ?_⟩
  · simp only [List.mem_flatMap]
    constructor
    · intro ⟨datagram, ⟨attempt, member, sent⟩, hasByte⟩
      have inside := (byte attempt member idx).mp ⟨datagram, sent, hasByte⟩
      exact Nat.lt_of_lt_of_le inside (longest attempt member).length_le
    · intro inside
      cases isLongest with
      | inl empty => simp [empty] at inside
      | inr found =>
        obtain ⟨attempt, member, rfl⟩ := found
        obtain ⟨datagram, sent, hasByte⟩ := (byte attempt member idx).mpr inside
        exact ⟨datagram, ⟨attempt, member, sent⟩, hasByte⟩
  · cases isLongest with
    | inl empty => exact Or.inl empty
    | inr found =>
      obtain ⟨attempt, member, rfl⟩ := found
      exact Or.inr ⟨attempt, member, through attempt⟩
  · exact fun attempt member => ⟨part attempt, through attempt, longest attempt member⟩
  · intro ⟨attempt, member, well⟩
    -- both this part and the whole file are what the same datagrams carry
    have whole := Attempt.getsThrough_of_ok large small well
    have isContent := (same attempt member).2
    have size := bounded attempt member
    rw [isContent] at whole
    apply isFront.eq_of_length_le
    by_contra shorter
    have inside := (whole.hasByte size front.length).mpr (by omega)
    have outside := (byte attempt member front.length).mp inside
    have fits := (longest attempt member).length_le
    omega

/-- A stream that delivers byte after byte. -/
def bytewise (bytes : List UInt8) : Reader := bytes.map fun byte => .data [byte]

theorem quiet_bytewise (bytes : List UInt8) : Quiet onReadError (bytewise bytes) := by
  intro event member
  obtain ⟨byte, -, rfl⟩ := List.mem_map.mp member
  simp

theorem contents_bytewise (bytes : List UInt8) : contents (bytewise bytes) = bytes := by
  simp [contents, bytewise, List.flatMap_map]

theorem delivers_bytewise (blockSize : Nat) (attempts : List Attempt) :
    List.Forall₂ (Delivers blockSize) attempts
      (attempts.map fun attempt => .ok (bytewise (attempt.send blockSize).2.written)) := by
  rw [List.forall₂_map_right_iff, List.forall₂_same]
  intro attempt _
  exact ⟨_, rfl, quiet_bytewise _, contents_bytewise _⟩

/-- The first connection breaks inside the second of three datagrams, the last one at once. -/
theorem attempts_leave_front_sample :
    ∃ connections, List.Forall₂ (Delivers 296)
        [⟨fileA, some 400⟩, ⟨fileA, none⟩, ⟨fileA, some 0⟩] connections ∧
      Disk.after (fun _ => some (List.replicate 14 7)) (receive permissive (.ok ())
        (.ok connections) [] 296).1 (Path.components (destinationOf [] "a")) =
          some [1, 2, 3, 4, 5, 6, 7, 8, 9, 10, 11, 12, 7, 7] := by
  have large : datagramHeaderLen < 296 := by decide
  have small : 296 - datagramHeaderLen < UInt32.size := by decide
  have same : ∀ attempt ∈ ([⟨fileA, some 400⟩, ⟨fileA, none⟩, ⟨fileA, some 0⟩] : List Attempt),
      attempt.source.fileName = "a" ∧ attempt.source.content = fileA.content := by
    have isFileA : fileA.fileName = "a" := rfl
    simp [isFileA]
  have delivers := delivers_bytewise 296 [⟨fileA, some 400⟩, ⟨fileA, none⟩, ⟨fileA, some 0⟩]
  obtain ⟨⟨front, -, after, -, -, whole⟩, -⟩ := attempts_leave_front large small same
    (permissive_accepts [] _) delivers fun _ => some (List.replicate 14 7)
  have isWhole := whole ⟨⟨fileA, none⟩, by simp, fileA.send_ok large small⟩
  rw [isWhole] at after
  exact ⟨_, delivers, after⟩

end GarudaCodec.FileTransfer
