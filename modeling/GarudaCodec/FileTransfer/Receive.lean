import GarudaCodec.Foundation.Readers
import GarudaCodec.Foundation.PositionalWrites
import GarudaCodec.FileTransfer.Protocol
import GarudaCodec.FileTransfer.Paths

/-! # `transfer.rs`: receiving files

`processStream` reads datagrams of one block each and returns the writes it makes, in order, with
its result.  A write is one opening of a path, the seek and the `write_all` behind it.
`processStream_writes` separates the loop's reading from its writing, and `processStream_run` says
what a stream is turned into when no datagram ends the loop.
-/

namespace GarudaCodec.FileTransfer

open GarudaCodec.Foundation
open GarudaCodec.Foundation.Readers
open GarudaCodec.Foundation.PositionalWrites (Write Store)

structure FileWrite where
  path : Path
  offset : UInt64
  payload : List UInt8
deriving DecidableEq

/-- Which calls the file system refuses: opening a path, or else seeking and writing, where a
    failed `write_all` has written a number of bytes. -/
structure FileSystem where
  openError : Path → Option ErrorKind
  writeError : FileWrite → Option (ErrorKind × Nat)

/-- The error arms of `Read::read_exact`. -/
def onReadError (kind : ErrorKind) (_stopReading : Bool) : Option ErrorKind :=
  if kind = .interrupted then none else some kind

/-- One turn of the loop behind `read_exact`, up to its end or the next turn. -/
def handleDatagram (fs : FileSystem) (outputPath : Path) (buffer : List UInt8) :
    List FileWrite × Outcome ErrorKind Unit :=
  match DatagramHeader.deserialize buffer with
  -- `continue`
  | .err _ => ([], .ok ())
  | .panic => ([], .panic)
  | .ok header =>
    match slice buffer datagramHeaderLen (datagramHeaderLen + header.payloadLength.toNat) with
    | none => ([], .panic)
    | some payload =>
      let filePath := Path.join outputPath (asBytes header.fileName)
      match fs.openError filePath with
      | some kind => ([], .err kind)
      | none =>
        let write : FileWrite := ⟨filePath, header.chunkOffset, payload⟩
        match fs.writeError write with
        | some (kind, count) => ([{ write with payload := payload.take count }], .err kind)
        | none => ([write], .ok ())

/-- The datagram has a payload of the announced length. -/
def Fits (datagram : List UInt8) (header : DatagramHeader) : Prop :=
  datagramHeaderLen + header.payloadLength.toNat ≤ datagram.length

/-- The write that an accepted datagram asks for. -/
def requested (outputPath : Path) (datagram : List UInt8) (header : DatagramHeader) :
    FileWrite where
  path := Path.join outputPath (asBytes header.fileName)
  offset := header.chunkOffset
  payload := field datagram datagramHeaderLen header.payloadLength.toNat

/-- All that a turn of the loop can do. -/
inductive Turn (fs : FileSystem) (outputPath : Path) (datagram : List UInt8) :
    List FileWrite × Outcome ErrorKind Unit → Prop
  | rejected {error : DatagramHeaderDeserializationError} :
    DatagramHeader.deserialize datagram = .err error → Turn fs outputPath datagram ([], .ok ())
  | tooShort {header : DatagramHeader} :
    DatagramHeader.deserialize datagram = .ok header → ¬Fits datagram header →
    Turn fs outputPath datagram ([], .panic)
  | refused {header : DatagramHeader} {kind : ErrorKind} :
    DatagramHeader.deserialize datagram = .ok header → Fits datagram header →
    fs.openError (requested outputPath datagram header).path = some kind →
    Turn fs outputPath datagram ([], .err kind)
  | failed {header : DatagramHeader} {kind : ErrorKind} {count : Nat} :
    DatagramHeader.deserialize datagram = .ok header → Fits datagram header →
    fs.openError (requested outputPath datagram header).path = none →
    fs.writeError (requested outputPath datagram header) = some (kind, count) →
    Turn fs outputPath datagram
      ([{ requested outputPath datagram header with
          payload := (requested outputPath datagram header).payload.take count }], .err kind)
  | written {header : DatagramHeader} :
    DatagramHeader.deserialize datagram = .ok header → Fits datagram header →
    fs.openError (requested outputPath datagram header).path = none →
    fs.writeError (requested outputPath datagram header) = none →
    Turn fs outputPath datagram ([requested outputPath datagram header], .ok ())

theorem handleDatagram_turn (fs : FileSystem) (outputPath : Path) (datagram : List UInt8) :
    Turn fs outputPath datagram (handleDatagram fs outputPath datagram) := by
  rw [handleDatagram]
  cases reads : DatagramHeader.deserialize datagram with
  | panic => exact absurd reads (DatagramHeader.deserialize_ne_panic datagram)
  | err error => exact .rejected reads
  | ok header =>
    by_cases fits : Fits datagram header
    · simp only [slice_field fits]
      split
      · next kind refused => exact .refused reads fits refused
      · next opens =>
        split
        · next kind count failed => exact .failed reads fits opens failed
        · next written => exact .written reads fits opens written
    · have short : slice datagram datagramHeaderLen
          (datagramHeaderLen + header.payloadLength.toNat) = none := by
        rw [slice, if_neg]
        rintro ⟨-, inside⟩
        exact fits inside
      simp only [short]
      exact .tooShort reads fits

/-- The result is `none` when the loop never ends. -/
def processStream (fs : FileSystem) (outputPath : Path) (blockSize : Nat) (stream : Reader) :
    List FileWrite × Option (Outcome ErrorKind Unit) :=
  -- an empty buffer is always filled and never a header
  if _positive : blockSize = 0 then ([], none)
  else
    match _reads : readExactWith onReadError stream blockSize with
    | (.error kind, _) => ([], some (.err kind))
    | (.ok buffer, rest) =>
      match handleDatagram fs outputPath buffer with
      | (writes, .ok ()) =>
        let (more, result) := processStream fs outputPath blockSize rest
        (writes ++ more, result)
      | (writes, ended) => (writes, some ended)
termination_by weight stream
decreasing_by exact weight_readExactWith (Nat.pos_of_ne_zero _positive) _reads

/-! ## What a file system holds -/

/-- Files by the components of their paths: paths that differ in repeated separators name the same
    file.  Links and `..` are not resolved: a place is a file of its own for plain names in one
    directory that holds no links. -/
abbrev Disk := Store (List Component) UInt8

/-- Opening creates the file if need be and does not truncate it; a gap is filled with zeros. -/
def FileWrite.onDisk (write : FileWrite) : List Component × Write UInt8 :=
  (Path.components write.path, (write.offset.toNat, write.payload))

def Disk.after (disk : Disk) (writes : List FileWrite) : Disk :=
  disk.putAll 0 (writes.map FileWrite.onDisk)

/-- A file that nothing is written to is left alone. -/
theorem Disk.after_other {disk : Disk} {writes : List FileWrite} {place : List Component}
    (elsewhere : ∀ write ∈ writes, place ≠ Path.components write.path) :
    disk.after writes place = disk place := by
  apply PositionalWrites.Store.putAll_other
  intro put inPuts
  obtain ⟨write, made, rfl⟩ := List.mem_map.mp inPuts
  exact (elsewhere write made).symm

/-! ## The datagrams of a stream -/

/-- The buffers that `read_exact` fills until it fails. -/
def received (blockSize : Nat) (stream : Reader) : List (List UInt8) :=
  if _positive : blockSize = 0 then []
  else
    match _reads : readExactWith onReadError stream blockSize with
    | (.error _, _) => []
    | (.ok buffer, rest) => buffer :: received blockSize rest
termination_by weight stream
decreasing_by exact weight_readExactWith (Nat.pos_of_ne_zero _positive) _reads

/-- The writes for a list of datagrams, up to the first one that ends the loop. -/
def writesOf (fs : FileSystem) (outputPath : Path) : List (List UInt8) → List FileWrite
  | [] => []
  | datagram :: datagrams =>
    match handleDatagram fs outputPath datagram with
    | (writes, .ok ()) => writes ++ writesOf fs outputPath datagrams
    | (writes, _) => writes

variable {fs : FileSystem} {outputPath : Path} {blockSize : Nat}

theorem received_error {stream rest : Reader} {kind : ErrorKind}
    (reads : readExactWith onReadError stream blockSize = (.error kind, rest)) :
    received blockSize stream = [] := by
  rw [received]
  split
  · rfl
  · split
    · rfl
    · next other => simp [reads] at other

theorem received_ok {stream rest : Reader} {buffer : List UInt8} (positive : 0 < blockSize)
    (reads : readExactWith onReadError stream blockSize = (.ok buffer, rest)) :
    received blockSize stream = buffer :: received blockSize rest := by
  rw [received, dif_neg (by omega)]
  split
  · next other => simp [reads] at other
  · next same =>
    rw [reads] at same
    cases same
    rfl

theorem processStream_error {stream rest : Reader} {kind : ErrorKind} (positive : 0 < blockSize)
    (reads : readExactWith onReadError stream blockSize = (.error kind, rest)) :
    processStream fs outputPath blockSize stream = ([], some (.err kind)) := by
  rw [processStream, dif_neg (by omega)]
  split
  · next same =>
    rw [reads] at same
    cases same
    rfl
  · next other => simp [reads] at other

theorem processStream_ok {stream rest : Reader} {buffer : List UInt8} (positive : 0 < blockSize)
    (reads : readExactWith onReadError stream blockSize = (.ok buffer, rest)) :
    processStream fs outputPath blockSize stream =
      match handleDatagram fs outputPath buffer with
      | (writes, .ok ()) =>
        (writes ++ (processStream fs outputPath blockSize rest).1,
          (processStream fs outputPath blockSize rest).2)
      | (writes, ended) => (writes, some ended) := by
  rw [processStream, dif_neg (by omega)]
  split
  · next other => simp [reads] at other
  · next same =>
    rw [reads] at same
    cases same
    rfl

/-- The writes depend on the stream only through the datagrams read from it. -/
theorem processStream_writes (stream : Reader) :
    (processStream fs outputPath blockSize stream).1 =
      writesOf fs outputPath (received blockSize stream) := by
  rcases Nat.eq_zero_or_pos blockSize with rfl | positive
  · rw [processStream, received]
    rfl
  induction stream using readExactWith_induction onReadError positive with
  | error reads =>
    rw [processStream_error positive reads, received_error reads]
    rfl
  | ok reads inductionHypothesis =>
    rw [processStream_ok positive reads, received_ok positive reads, writesOf]
    split
    · rw [inductionHypothesis]
    · next writes ended notOk handled => rfl

/-- From a stream of whole datagrams just these are read. -/
theorem received_run {stream : Reader} {datagrams : List (List UInt8)}
    (quiet : Quiet onReadError stream) (positive : 0 < blockSize)
    (sizes : ∀ datagram ∈ datagrams, datagram.length = blockSize)
    (content : contents stream = datagrams.flatten) : received blockSize stream = datagrams := by
  induction datagrams generalizing stream with
  | nil => exact received_error (quiet.reads_eof (by rw [content]; exact positive : _ < blockSize))
  | cons datagram datagrams inductionHypothesis =>
    obtain ⟨size, restSizes⟩ := List.forall_mem_cons.mp sizes
    obtain ⟨rest, reads, restQuiet, restContent⟩ := quiet.reads_front content
    rw [size] at reads
    rw [received_ok positive reads, inductionHypothesis restQuiet restSizes restContent]

/-- A stream of whole datagrams none of which ends the loop is worked through to its end. -/
theorem processStream_run {stream : Reader} {datagrams : List (List UInt8)}
    (quiet : Quiet onReadError stream) (positive : 0 < blockSize)
    (sizes : ∀ datagram ∈ datagrams, datagram.length = blockSize)
    (content : contents stream = datagrams.flatten)
    (handled : ∀ datagram ∈ datagrams, (handleDatagram fs outputPath datagram).2 = .ok ()) :
    processStream fs outputPath blockSize stream =
      (datagrams.flatMap fun datagram => (handleDatagram fs outputPath datagram).1,
        some (.err .unexpectedEof)) := by
  induction datagrams generalizing stream with
  | nil =>
    have atEnd := quiet.reads_eof (by rw [content]; exact positive : _ < blockSize)
    rw [processStream_error positive atEnd]
    rfl
  | cons datagram datagrams inductionHypothesis =>
    obtain ⟨size, restSizes⟩ := List.forall_mem_cons.mp sizes
    obtain ⟨first, restHandled⟩ := List.forall_mem_cons.mp handled
    obtain ⟨rest, reads, restQuiet, restContent⟩ := quiet.reads_front content
    rw [size] at reads
    rw [processStream_ok positive reads,
      inductionHypothesis restQuiet restSizes restContent restHandled, List.flatMap_cons]
    generalize handleDatagram fs outputPath datagram = turn at first ⊢
    obtain ⟨writes, result⟩ := turn
    cases first
    rfl

/-! ## Streams to run on -/

/-- A file system on which nothing fails. -/
def permissive : FileSystem := ⟨fun _ => none, fun _ => none⟩

/-- A stream on which the datagrams arrive one by one. -/
def deliver (datagrams : List (List UInt8)) : Reader := datagrams.map .data

theorem contents_deliver (datagrams : List (List UInt8)) :
    contents (deliver datagrams) = datagrams.flatten := by
  induction datagrams with
  | nil => rfl
  | cons datagram datagrams inductionHypothesis =>
    rw [List.flatten_cons, ← inductionHypothesis]
    rfl

theorem quiet_deliver {datagrams : List (List UInt8)}
    (nonempty : ∀ datagram ∈ datagrams, datagram ≠ []) :
    Quiet onReadError (deliver datagrams) := by
  intro event member
  obtain ⟨datagram, inDatagrams, rfl⟩ := List.mem_map.mp member
  exact nonempty datagram inDatagrams

end GarudaCodec.FileTransfer
