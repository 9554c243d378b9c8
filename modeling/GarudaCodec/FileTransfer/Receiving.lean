import GarudaCodec.Foundation.LastWrites
import GarudaCodec.FileTransfer.Malformed
import GarudaCodec.FileTransfer.Reassembly

/-! # `transfer.rs`: receiving over many connections

`receive` serves its connections one after another, and an error of one of them is printed and
forgotten.  As files are neither truncated nor locked, what is left in the end does not depend on
where one connection stops and the next one starts: under plain names, every byte is what the last
datagram that has it made of it (`last_datagram_wins`).  For datagrams of files with different names
this means that any part of them, in any order and over any connections, patches the files into what
was there (`received_in_parts`).
-/

namespace GarudaCodec.FileTransfer

open GarudaCodec.Foundation
open GarudaCodec.Foundation.Readers
open GarudaCodec.Foundation.PositionalWrites

/-- The loop of `receive` over what the listener's `incoming` gives.  The list ends where `incoming`
    ends or waits for the next connection. -/
def receiveLoop (fs : FileSystem) (outputPath : Path) (blockSize : Nat) :
    List (Except ErrorKind Reader) → List FileWrite × Option (Outcome ErrorKind Unit)
  | [] => ([], some (.ok ()))
  | .error kind :: _ => ([], some (.err kind))
  | .ok stream :: connections =>
    match processStream fs outputPath blockSize stream with
    | (writes, none) => (writes, none)
    | (writes, some .panic) => (writes, some .panic)
    -- an error is printed
    | (writes, some _) =>
      let (more, result) := receiveLoop fs outputPath blockSize connections
      (writes ++ more, result)

/-- What `create_dir_all` and `Listener::from_uri` return is given. -/
def receive (fs : FileSystem) (createDirAll : Except ErrorKind Unit)
    (incoming : Except ErrorKind (List (Except ErrorKind Reader))) (outputPath : Path)
    (blockSize : Nat) : List FileWrite × Option (Outcome ErrorKind Unit) :=
  match createDirAll, incoming with
  | .error kind, _ => ([], some (.err kind))
  | .ok (), .error kind => ([], some (.err kind))
  | .ok (), .ok connections => receiveLoop fs outputPath blockSize connections

/-- The streams that are served: all before the first connection that fails to be accepted. -/
def served : List (Except ErrorKind Reader) → List Reader
  | .ok stream :: connections => stream :: served connections
  | _ => []

/-- All datagrams that are read, in order. -/
def receivedOver (blockSize : Nat) (connections : List (Except ErrorKind Reader)) :
    List (List UInt8) :=
  (served connections).flatMap (received blockSize)

variable {fs : FileSystem} {outputPath : Path} {blockSize : Nat}
  {connections : List (Except ErrorKind Reader)}

/-! ## Connections on which no datagram ends the loop -/

theorem writes_cons (fs : FileSystem) (outputPath : Path) (datagram : List UInt8)
    (datagrams : List (List UInt8)) :
    Transferred.writes fs outputPath (datagram :: datagrams) =
      (handleDatagram fs outputPath datagram).1 ++ Transferred.writes fs outputPath datagrams := rfl

theorem processStream_received (positive : 0 < blockSize) {stream : Reader}
    (goOn : ∀ datagram ∈ received blockSize stream, ¬Stops fs outputPath datagram) :
    ∃ kind, processStream fs outputPath blockSize stream =
      (Transferred.writes fs outputPath (received blockSize stream), some (.err kind)) := by
  induction stream using readExactWith_induction onReadError positive with
  | error reads =>
    rw [processStream_error positive reads, received_error reads]
    exact ⟨_, rfl⟩
  | ok reads inductionHypothesis =>
    rw [received_ok positive reads] at goOn ⊢
    obtain ⟨first, later⟩ := List.forall_mem_cons.mp goOn
    obtain ⟨kind, rest⟩ := inductionHypothesis later
    have well := handleDatagram_goesOn.mpr first
    refine ⟨kind, ?_⟩
    rw [processStream_ok positive reads, rest, writes_cons]
    generalize handleDatagram fs outputPath _ = turn at well ⊢
    obtain ⟨writes, result⟩ := turn
    cases well
    rfl

/-- Where one connection stops and the next one starts makes no difference. -/
theorem receiveLoop_writes (positive : 0 < blockSize)
    (goOn : ∀ datagram ∈ receivedOver blockSize connections, ¬Stops fs outputPath datagram) :
    (receiveLoop fs outputPath blockSize connections).1 =
      Transferred.writes fs outputPath (receivedOver blockSize connections) := by
  induction connections with
  | nil => rfl
  | cons connection connections inductionHypothesis =>
    cases connection with
    | error kind => rfl
    | ok stream =>
      simp only [receivedOver, served, List.flatMap_cons, List.forall_mem_append] at goOn
      obtain ⟨here, later⟩ := goOn
      obtain ⟨kind, processed⟩ := processStream_received positive here
      simp only [receiveLoop, processed, inductionHypothesis later, receivedOver, served,
        List.flatMap_cons, Transferred.writes, List.flatMap_append]

/-- An error of a connection does not keep the later ones from being served. -/
theorem receiveLoop_result (positive : 0 < blockSize)
    (goOn : ∀ datagram ∈ receivedOver blockSize connections, ¬Stops fs outputPath datagram)
    (accepted : ∀ connection ∈ connections, ∃ stream, connection = .ok stream) :
    (receiveLoop fs outputPath blockSize connections).2 = some (.ok ()) := by
  induction connections with
  | nil => rfl
  | cons connection connections inductionHypothesis =>
    obtain ⟨⟨stream, rfl⟩, laterAccepted⟩ := List.forall_mem_cons.mp accepted
    simp only [receivedOver, served, List.flatMap_cons, List.forall_mem_append] at goOn
    obtain ⟨here, later⟩ := goOn
    obtain ⟨kind, processed⟩ := processStream_received positive here
    simp only [receiveLoop, processed, inductionHypothesis later laterAccepted]

/-! ## The last datagram wins -/

/-- What a datagram has for one byte of the file of this name. -/
def byteFor (name : List UInt8) (idx : Nat) (datagram : List UInt8) : Option UInt8 :=
  match DatagramHeader.deserialize datagram with
  | .ok header =>
    if asBytes header.fileName = name then
      putsAt (header.chunkOffset.toNat,
        field datagram datagramHeaderLen header.payloadLength.toNat) idx
    else none
  | _ => none

/-- What the last datagram that has something for that byte has for it. -/
def lastByteFor (name : List UInt8) (idx : Nat) (datagrams : List (List UInt8)) : Option UInt8 :=
  datagrams.reverse.findSome? (byteFor name idx)

/-- The datagram is accepted under this name. -/
def Names (name : List UInt8) (datagram : List UInt8) : Prop :=
  ∃ header, DatagramHeader.deserialize datagram = .ok header ∧ asBytes header.fileName = name

/-- If the datagram is accepted, then under a name that an entry of the directory can have. -/
def PlainlyNamed (datagram : List UInt8) : Prop :=
  ∀ name, Names name datagram → PlainName name

/-- The file of this name in the directory. -/
def Disk.entry (disk : Disk) (outputPath : Path) (name : List UInt8) : Option (List UInt8) :=
  disk (Path.components (Path.join outputPath name))

section Entries

variable {datagram name : List UInt8} {datagrams : List (List UInt8)}

/-- An accepted datagram is for the file of its own name only. -/
theorem path_requested_iff (outputPath : Path) {header : DatagramHeader}
    (reads : DatagramHeader.deserialize datagram = .ok header) (named : PlainlyNamed datagram)
    (plain : PlainName name) :
    Path.components (requested outputPath datagram header).path =
        Path.components (Path.join outputPath name) ↔ asBytes header.fileName = name := by
  constructor
  · exact Path.components_join_inj (named _ ⟨header, reads, rfl⟩) plain
  · rintro rfl
    rfl

theorem lastAt_datagram (goesOn : ¬Stops fs outputPath datagram) (named : PlainlyNamed datagram)
    (plain : PlainName name) (idx : Nat) :
    lastAt (under (Path.components (Path.join outputPath name))
        ((handleDatagram fs outputPath datagram).1.map FileWrite.onDisk)) idx =
      byteFor name idx datagram := by
  have well := handleDatagram_goesOn.mpr goesOn
  have turn := handleDatagram_turn fs outputPath datagram
  generalize handleDatagram fs outputPath datagram = outcome at turn well ⊢
  cases turn with
  | rejected rejected => simp [byteFor, rejected, under, lastAt]
  | tooShort | refused | failed => cases well
  | @written header reads fits opens written =>
    have place := path_requested_iff outputPath reads named plain
    by_cases here : asBytes header.fileName = name
    · simp [byteFor, reads, under, FileWrite.onDisk, here, lastAt, requested]
    · simp [byteFor, reads, under, FileWrite.onDisk, place, here, lastAt]

theorem lastAt_datagrams (goOn : ∀ datagram ∈ datagrams, ¬Stops fs outputPath datagram)
    (named : ∀ datagram ∈ datagrams, PlainlyNamed datagram) (plain : PlainName name) (idx : Nat) :
    lastAt (under (Path.components (Path.join outputPath name))
        ((Transferred.writes fs outputPath datagrams).map FileWrite.onDisk)) idx =
      lastByteFor name idx datagrams := by
  induction datagrams with
  | nil => rfl
  | cons datagram datagrams inductionHypothesis =>
    obtain ⟨first, later⟩ := List.forall_mem_cons.mp goOn
    obtain ⟨firstNamed, laterNamed⟩ := List.forall_mem_cons.mp named
    rw [writes_cons, List.map_append, under, List.filterMap_append, ← under, ← under,
      lastAt_append, inductionHypothesis later laterNamed, lastAt_datagram first firstNamed plain,
      lastByteFor, lastByteFor, List.reverse_cons, List.findSome?_append, List.findSome?_cons,
      List.findSome?_nil]
    cases byteFor name idx datagram with
    | none => rfl
    | some byte => rfl

/-- A file is written to exactly if a datagram names it. -/
theorem under_datagrams_eq_nil (goOn : ∀ datagram ∈ datagrams, ¬Stops fs outputPath datagram)
    (named : ∀ datagram ∈ datagrams, PlainlyNamed datagram) (plain : PlainName name) :
    under (Path.components (Path.join outputPath name))
        ((Transferred.writes fs outputPath datagrams).map FileWrite.onDisk) = [] ↔
      ∀ datagram ∈ datagrams, ¬Names name datagram := by
  induction datagrams with
  | nil => simp [Transferred.writes, under]
  | cons datagram datagrams inductionHypothesis =>
    obtain ⟨first, later⟩ := List.forall_mem_cons.mp goOn
    obtain ⟨firstNamed, laterNamed⟩ := List.forall_mem_cons.mp named
    rw [writes_cons, List.map_append, under, List.filterMap_append, ← under, ← under,
      List.append_eq_nil_iff, inductionHypothesis later laterNamed, List.forall_mem_cons]
    have well := handleDatagram_goesOn.mpr first
    have turn := handleDatagram_turn fs outputPath datagram
    generalize handleDatagram fs outputPath datagram = outcome at turn well ⊢
    cases turn with
    | rejected rejected => simp [Names, rejected, under]
    | tooShort | refused | failed => cases well
    | @written header reads fits opens written =>
      have place := path_requested_iff outputPath reads firstNamed plain
      simp [Names, reads, under, FileWrite.onDisk, place]

/-- Nothing is written but to files that can be entries of the directory. -/
theorem path_of_writes (named : ∀ datagram ∈ datagrams, PlainlyNamed datagram) :
    ∀ write ∈ Transferred.writes fs outputPath datagrams,
      ∃ name, PlainName name ∧ write.path = Path.join outputPath name := by
  intro write made
  obtain ⟨datagram, member, inTurn⟩ := List.mem_flatMap.mp made
  have turn := handleDatagram_turn fs outputPath datagram
  generalize handleDatagram fs outputPath datagram = outcome at turn inTurn
  cases turn with
  | rejected | tooShort | refused => cases inTurn
  | @failed header kind count reads =>
    cases List.mem_singleton.mp inTurn
    exact ⟨_, named datagram member _ ⟨header, reads, rfl⟩, rfl⟩
  | @written header reads =>
    cases List.mem_singleton.mp inTurn
    exact ⟨_, named datagram member _ ⟨header, reads, rfl⟩, rfl⟩

theorem writes_receivedOver (positive : 0 < blockSize)
    (goOn : ∀ datagram ∈ receivedOver blockSize connections, ¬Stops fs outputPath datagram) :
    (receive fs (.ok ()) (.ok connections) outputPath blockSize).1 =
      Transferred.writes fs outputPath (receivedOver blockSize connections) :=
  receiveLoop_writes positive goOn

/-- What a file of the directory holds afterwards. -/
theorem overwritten_entry (positive : 0 < blockSize)
    (goOn : ∀ datagram ∈ receivedOver blockSize connections, ¬Stops fs outputPath datagram)
    (named : ∀ datagram ∈ receivedOver blockSize connections, PlainlyNamed datagram)
    (disk : Disk) (plain : PlainName name) :
    Overwritten 0 (fun idx => lastByteFor name idx (receivedOver blockSize connections))
      ((disk.entry outputPath name).getD [])
      (((disk.after (receive fs (.ok ()) (.ok connections) outputPath blockSize).1).entry
        outputPath name).getD []) := by
  rw [writes_receivedOver positive goOn, Disk.entry, Disk.entry, Disk.after]
  simp only [Store.getD_putAll, ← lastAt_datagrams goOn named plain]
  exact writeAll_overwritten

end Entries

/-- Whatever datagrams arrive on however many connections, under plain names if they are accepted
    and as long as none of them ends its connection: every byte of every file of the directory is
    what the last datagram that has it made of it, the files that are there are the old ones and
    those that a datagram names, and nothing outside the directory changes. -/
theorem last_datagram_wins (positive : 0 < blockSize)
    (goOn : ∀ datagram ∈ receivedOver blockSize connections, ¬Stops fs outputPath datagram)
    (named : ∀ datagram ∈ receivedOver blockSize connections, PlainlyNamed datagram)
    (disk : Disk) :
    (∀ name, PlainName name →
      Overwritten 0 (fun idx => lastByteFor name idx (receivedOver blockSize connections))
          ((disk.entry outputPath name).getD [])
          (((disk.after (receive fs (.ok ()) (.ok connections) outputPath blockSize).1).entry
            outputPath name).getD []) ∧
        ((disk.after (receive fs (.ok ()) (.ok connections) outputPath blockSize).1).entry
            outputPath name = none ↔
          disk.entry outputPath name = none ∧
            ∀ datagram ∈ receivedOver blockSize connections, ¬Names name datagram)) ∧
      ∀ place, (∀ name, PlainName name → place ≠ Path.components (Path.join outputPath name)) →
        disk.after (receive fs (.ok ()) (.ok connections) outputPath blockSize).1 place =
          disk place := by
  have writes := writes_receivedOver positive goOn
  refine ⟨fun name plain => ⟨overwritten_entry positive goOn named disk plain, ?_⟩,
    fun place outside => ?_⟩
  · rw [writes, Disk.entry, Disk.after, Store.putAll_apply,
      ← under_datagrams_eq_nil goOn named plain]
    split
    · next nothing => simp [nothing, Disk.entry]
    · next written => simp [written]
  · rw [writes]
    apply Disk.after_other
    intro write made
    obtain ⟨name, plain, path⟩ := path_of_writes named write made
    exact path ▸ outside name plain

/-- Two connections that bring a byte each for the front of a file, the second one after a datagram
    that is skipped. -/
def twoConnections : List (Except ErrorKind Reader) :=
  [.ok (deliver [oneByteDatagram 1 (asBytes "a") 7]),
    .ok (deliver [notUtf8, oneByteDatagram 1 (asBytes "a") 5])]

theorem receivedOver_twoConnections :
    receivedOver 293 twoConnections =
      [oneByteDatagram 1 (asBytes "a") 7, notUtf8, oneByteDatagram 1 (asBytes "a") 5] := by
  have sizes := fun byte =>
    length_oneByteDatagram 1 byte (show (asBytes "a").length ≤ fileNameLen by decide)
  have invalid : notUtf8.length = 293 :=
    length_oneByteDatagram 1 8 (show [0xFF].length ≤ fileNameLen by decide)
  have first : received 293 (deliver [oneByteDatagram 1 (asBytes "a") 7]) = _ :=
    received_oneByte _ (by simp [sizes])
  have second : received 293 (deliver [notUtf8, oneByteDatagram 1 (asBytes "a") 5]) = _ :=
    received_oneByte _ (by simp [sizes, invalid])
  simp [receivedOver, served, twoConnections, first, second]

theorem goOn_twoConnections :
    ∀ datagram ∈ receivedOver 293 twoConnections, ¬Stops permissive (asBytes "out") datagram := by
  have well : ∀ byte, ¬Stops permissive (asBytes "out") (oneByteDatagram 1 (asBytes "a") byte) := by
    intro byte
    have length := length_oneByteDatagram 1 byte (show (asBytes "a").length ≤ fileNameLen by decide)
    have fine : isMalformed (oneByteDatagram 1 (asBytes "a") byte) = false := by
      rw [isMalformed, deserialize_oneByteDatagram]
      simp only [length]
      decide
    obtain ⟨write, handled⟩ := writes_of_wellFormed (asBytes "out") fine
    rw [← handleDatagram_goesOn, handled]
  have skipped : ¬Stops permissive (asBytes "out") notUtf8 := by simp [Stops, deserialize_notUtf8]
  simp [receivedOver_twoConnections, well, skipped]

theorem named_twoConnections :
    ∀ datagram ∈ receivedOver 293 twoConnections, PlainlyNamed datagram := by
  have well : ∀ byte, PlainlyNamed (oneByteDatagram 1 (asBytes "a") byte) := by
    intro byte name isName
    obtain ⟨header, reads, rfl⟩ := isName
    rw [deserialize_oneByteDatagram] at reads
    cases reads
    decide
  have skipped : PlainlyNamed notUtf8 := by simp [PlainlyNamed, Names, deserialize_notUtf8]
  simp [receivedOver_twoConnections, well, skipped]

theorem lastByteFor_twoConnections :
    lastByteFor (asBytes "a") 0 (receivedOver 293 twoConnections) = some 5 ∧
      lastByteFor (asBytes "a") 1 (receivedOver 293 twoConnections) = none := by
  have payload : ∀ byte,
      field (oneByteDatagram 1 (asBytes "a") byte) datagramHeaderLen 1 = [byte] := by
    intro byte
    rw [oneByteDatagram, field, List.drop_left' (DatagramHeader.length_layout _ (by decide))]
    rfl
  have carried : ∀ byte idx, byteFor (asBytes "a") idx (oneByteDatagram 1 (asBytes "a") byte) =
      putsAt (0, [byte]) idx := by
    simp [byteFor, deserialize_oneByteDatagram, payload]
  have nothing : ∀ idx, byteFor (asBytes "a") idx notUtf8 = none := by
    simp [byteFor, deserialize_notUtf8]
  simp [receivedOver_twoConnections, lastByteFor, carried, nothing, putsAt]

theorem last_datagram_wins_sample :
    ∃ content : List UInt8,
      ((Disk.after (fun _ => some [1, 2, 3]) (receive permissive (.ok ()) (.ok twoConnections)
        (asBytes "out") 293).1).entry (asBytes "out") (asBytes "a")).getD [] = content ∧
        content[0]? = some 5 ∧ content[1]? = some 2 := by
  obtain ⟨files, -⟩ := last_datagram_wins (show 0 < 293 by decide) goOn_twoConnections
    named_twoConnections fun _ => some [1, 2, 3]
  obtain ⟨overwritten, -⟩ := files (asBytes "a") (by decide)
  obtain ⟨first, second⟩ := lastByteFor_twoConnections
  exact ⟨_, rfl, overwritten.inPlace 0 5 first, overwritten.kept 1 second (by simp [Disk.entry])⟩

/-! ## Files in parts -/

/-- The payload of the datagram has the byte of its file at this position. -/
def HasByte (datagram : List UInt8) (idx : Nat) : Prop :=
  ∃ header payload, Carries header payload datagram ∧ Covers (header.chunkOffset.toNat, payload) idx

/-- Every datagram of a file has a byte of it. -/
theorem Sent.hasByte {fileId : Uuid} {fileName : String} {fileLength : UInt64} {offset : Nat}
    {data : List UInt8} {datagrams : List (List UInt8)}
    (sent : Sent fileId fileName fileLength blockSize offset data datagrams) :
    ∀ datagram ∈ datagrams, ∃ idx, HasByte datagram idx := by
  induction sent with
  | done => simp
  | chunk nonempty size carries later inductionHypothesis =>
    refine List.forall_mem_cons.mpr ⟨⟨_, _, _, carries, Nat.le_refl _, ?_⟩, inductionHypothesis⟩
    exact Nat.lt_add_of_pos_right (List.length_pos_iff.mpr nonempty)

/-- A datagram of the file with this byte is among those that have arrived. -/
def Arrived (source : SourceFile) (blockSize : Nat) (arrivals : List (List UInt8)) (idx : Nat) :
    Prop :=
  ∃ datagram ∈ arrivals, datagram ∈ source.datagrams blockSize ∧ HasByte datagram idx

/-- When the writes to a place are the payloads of the arrivals that are meant for it, and these are
    pieces of some content, they patch it into what was there. -/
theorem patched_of_arrivals {arrivals : List (List UInt8)} (meant : List UInt8 → Prop)
    {place : List Component} {content : List UInt8}
    (isUnder : ∀ write, write ∈ under place
        ((Transferred.writes fs outputPath arrivals).map FileWrite.onDisk) ↔
      ∃ datagram ∈ arrivals, meant datagram ∧ ∃ header payload, Carries header payload datagram ∧
        write = (header.chunkOffset.toNat, payload))
    (pieces : ∀ datagram ∈ arrivals, meant datagram → ∃ header payload,
      Carries header payload datagram ∧ Within content (header.chunkOffset.toNat, payload))
    (disk : Disk) :
    Patched 0 content (fun idx => ∃ datagram ∈ arrivals, meant datagram ∧ HasByte datagram idx)
      ((disk place).getD [])
      ((disk.after (Transferred.writes fs outputPath arrivals) place).getD []) := by
  rw [Disk.after, Store.getD_putAll]
  refine (writeAll_patched ?_).congr ?_
  · intro write inUnder
    obtain ⟨datagram, arrived, isMeant, header, payload, carries, rfl⟩ := (isUnder write).mp inUnder
    obtain ⟨other, carried, otherCarries, within⟩ := pieces datagram arrived isMeant
    obtain ⟨rfl, rfl⟩ := carries.unique otherCarries
    exact within
  · intro idx
    simp only [isUnder, HasByte]
    constructor
    · rintro ⟨write, ⟨datagram, arrived, isMeant, header, payload, carries, rfl⟩, covers⟩
      exact ⟨datagram, arrived, isMeant, header, payload, carries, covers⟩
    · rintro ⟨datagram, arrived, isMeant, header, payload, carries, covers⟩
      exact ⟨_, ⟨datagram, arrived, isMeant, header, payload, carries, rfl⟩, covers⟩

/-- Some datagrams of these files, and a file system that takes them. -/
structure InParts (fs : FileSystem) (outputPath : Path) (blockSize : Nat)
    (sources : List SourceFile) (arrivals : List (List UInt8)) : Prop where
  large : datagramHeaderLen < blockSize
  small : blockSize - datagramHeaderLen < UInt32.size
  plain : ∀ source ∈ sources, PlainName (asBytes (transmittedName source.fileName))
  distinct : sources.Pairwise fun source other =>
    transmittedName source.fileName ≠ transmittedName other.fileName
  genuine : ∀ datagram ∈ arrivals, ∃ source ∈ sources, datagram ∈ source.datagrams blockSize
  accepts : fs.Accepts outputPath arrivals

namespace InParts

variable {sources : List SourceFile} {arrivals : List (List UInt8)} {disk : Disk}

/-- What the receiver does with a datagram that arrives. -/
theorem handles (inParts : InParts fs outputPath blockSize sources arrivals)
    {datagram : List UInt8} (arrived : datagram ∈ arrivals) :
    ∃ source ∈ sources, datagram ∈ source.datagrams blockSize ∧
      ∃ header payload, Carries header payload datagram ∧
        Within source.content (header.chunkOffset.toNat, payload) ∧
        handleDatagram fs outputPath datagram =
          ([⟨source.destination outputPath, header.chunkOffset, payload⟩], .ok ()) := by
  obtain ⟨source, member, sent⟩ := inParts.genuine datagram arrived
  obtain ⟨header, payload, carries, -, within, handled⟩ := source.handleDatagram_eq inParts.large
    (source.send_ok inParts.large inParts.small) sent inParts.accepts arrived
  exact ⟨source, member, sent, header, payload, carries, within, handled⟩

theorem goOn (inParts : InParts fs outputPath blockSize sources arrivals) :
    ∀ datagram ∈ arrivals, ¬Stops fs outputPath datagram := by
  intro datagram arrived
  obtain ⟨source, -, -, header, payload, -, -, handled⟩ := inParts.handles arrived
  rw [← handleDatagram_goesOn, handled]

theorem destination_inj (inParts : InParts fs outputPath blockSize sources arrivals)
    {source other : SourceFile} (member : source ∈ sources) (otherMember : other ∈ sources)
    (same : Path.components (source.destination outputPath) =
      Path.components (other.destination outputPath)) : source = other := by
  have names : transmittedName source.fileName = transmittedName other.fileName :=
    asBytes_injective (Path.components_join_inj (inParts.plain source member)
      (inParts.plain other otherMember) same)
  have symmetric : Std.Symm fun source other : SourceFile =>
      transmittedName source.fileName ≠ transmittedName other.fileName :=
    ⟨fun _ _ differ => differ.symm⟩
  by_contra differ
  exact inParts.distinct.forall member otherMember differ names

/-- The writes to the destination of a file are those of its own datagrams. -/
theorem mem_under (inParts : InParts fs outputPath blockSize sources arrivals)
    {source : SourceFile} (member : source ∈ sources) {write : Write UInt8} :
    write ∈ under (Path.components (source.destination outputPath))
        ((Transferred.writes fs outputPath arrivals).map FileWrite.onDisk) ↔
      ∃ datagram ∈ arrivals, datagram ∈ source.datagrams blockSize ∧
        ∃ header payload, Carries header payload datagram ∧
          write = (header.chunkOffset.toNat, payload) := by
  rw [PositionalWrites.mem_under]
  simp only [Transferred.writes, List.mem_map, List.mem_flatMap]
  constructor
  · rintro ⟨made, ⟨datagram, arrived, inTurn⟩, put⟩
    obtain ⟨other, otherMember, sent, header, payload, carries, -, handled⟩ :=
      inParts.handles arrived
    rw [handled] at inTurn
    cases List.mem_singleton.mp inTurn
    obtain ⟨place, isWrite⟩ := Prod.mk.inj put
    rw [inParts.destination_inj member otherMember place.symm]
    exact ⟨datagram, arrived, sent, header, payload, carries, isWrite.symm⟩
  · rintro ⟨datagram, arrived, sent, header, payload, carries, rfl⟩
    obtain ⟨other, carried, otherCarries, -, -, handled⟩ := source.handleDatagram_eq inParts.large
      (source.send_ok inParts.large inParts.small) sent inParts.accepts arrived
    obtain ⟨rfl, rfl⟩ := carries.unique otherCarries
    refine ⟨⟨source.destination outputPath, header.chunkOffset, payload⟩, ⟨datagram, arrived, ?_⟩,
      rfl⟩
    rw [handled]
    exact List.mem_singleton_self _

/-- The datagrams that have arrived patch each file into what was there. -/
theorem patched (inParts : InParts fs outputPath blockSize sources arrivals) (disk : Disk)
    {source : SourceFile} (member : source ∈ sources) :
    Patched 0 source.content (Arrived source blockSize arrivals)
      ((disk (Path.components (source.destination outputPath))).getD [])
      ((disk.after (Transferred.writes fs outputPath arrivals)
        (Path.components (source.destination outputPath))).getD []) := by
  refine patched_of_arrivals _ (fun _ => inParts.mem_under member) ?_ disk
  intro datagram arrived sent
  obtain ⟨header, payload, carries, -, within, -⟩ := source.handleDatagram_eq inParts.large
    (source.send_ok inParts.large inParts.small) sent inParts.accepts arrived
  exact ⟨header, payload, carries, within⟩

/-- No other file is touched. -/
theorem after_other (inParts : InParts fs outputPath blockSize sources arrivals) (disk : Disk)
    {place : List Component}
    (other : ∀ source ∈ sources, place ≠ Path.components (source.destination outputPath)) :
    disk.after (Transferred.writes fs outputPath arrivals) place = disk place := by
  apply Disk.after_other
  intro write made
  obtain ⟨datagram, arrived, inTurn⟩ := List.mem_flatMap.mp made
  obtain ⟨source, member, -, header, payload, -, -, handled⟩ := inParts.handles arrived
  rw [handled] at inTurn
  cases List.mem_singleton.mp inTurn
  exact other source member

end InParts

/-- A connection that breaks off inside a datagram has delivered the datagrams before it. -/
theorem received_broken {stream : Reader} {datagrams : List (List UInt8)} {rest : List UInt8}
    (quiet : Quiet onReadError stream) (positive : 0 < blockSize)
    (sizes : ∀ datagram ∈ datagrams, datagram.length = blockSize)
    (content : contents stream = datagrams.flatten ++ rest) (short : rest.length < blockSize) :
    received blockSize stream = datagrams := by
  induction datagrams generalizing stream with
  | nil =>
    have few : (contents stream).length < blockSize := by simpa [content] using short
    exact received_error (quiet.reads_eof few)
  | cons datagram datagrams inductionHypothesis =>
    obtain ⟨size, restSizes⟩ := List.forall_mem_cons.mp sizes
    rw [List.flatten_cons, List.append_assoc] at content
    obtain ⟨left, reads, leftQuiet, leftContent⟩ := quiet.reads_front content
    rw [size] at reads
    rw [received_ok positive reads, inductionHypothesis leftQuiet restSizes leftContent]

theorem carries_sampleDatagram (fileName : String) (fileLength chunkOffset : UInt64)
    {piece : List UInt8} (four : piece.length = 4)
    (short : (asBytes fileName).length ≤ fileNameLen)
    (noNul : (asBytes fileName).takeWhile (· != 0) = asBytes fileName) :
    Carries ⟨Uuid.nil, fileLength, chunkOffset, 4, fileName⟩ piece
      (sampleDatagram fileName fileLength chunkOffset piece) := by
  refine ⟨DatagramHeader.deserialize_layout _ piece short noNul, ?_⟩
  have header := DatagramHeader.length_layout
    ⟨Uuid.nil, fileLength, chunkOffset, 4, fileName⟩ short
  have isFour : (4 : UInt32).toNat = 4 := rfl
  simp only [sampleDatagram, isFour]
  rw [slice_field (by rw [List.length_append, header, four]), field, List.drop_left' header,
    ← four, List.take_length]

theorem hasByte_iff {header : DatagramHeader} {payload datagram : List UInt8}
    (carries : Carries header payload datagram) (idx : Nat) :
    HasByte datagram idx ↔ Covers (header.chunkOffset.toNat, payload) idx := by
  constructor
  · rintro ⟨other, carried, otherCarries, covers⟩
    obtain ⟨rfl, rfl⟩ := carries.unique otherCarries
    exact covers
  · exact fun covers => ⟨header, payload, carries, covers⟩

/-- The last datagram of the first file and its first one. -/
def partArrivals : List (List UInt8) :=
  [sampleDatagram "a" 12 8 [9, 10, 11, 12], sampleDatagram "a" 12 0 [1, 2, 3, 4]]

def partWrites : List (Write UInt8) := [(8, [9, 10, 11, 12]), (0, [1, 2, 3, 4])]

theorem sent_partArrivals : ∀ datagram ∈ partArrivals, datagram ∈ fileA.datagrams 296 := by
  rw [datagrams_fileA]
  decide +kernel

theorem arrived_partArrivals {arrivals : List (List UInt8)}
    (same : ∀ datagram, datagram ∈ arrivals ↔ datagram ∈ partArrivals) (idx : Nat) :
    Arrived fileA 296 arrivals idx ↔ ∃ datagram ∈ partArrivals, HasByte datagram idx := by
  simp only [Arrived, same]
  constructor
  · rintro ⟨datagram, member, -, hasByte⟩
    exact ⟨datagram, member, hasByte⟩
  · rintro ⟨datagram, member, hasByte⟩
    exact ⟨datagram, member, sent_partArrivals datagram member, hasByte⟩

/-- When just these two arrive, the piece between them is left as it was. -/
theorem patched_partArrivals {arrived : Nat → Prop} {before after : List UInt8}
    (same : ∀ idx, arrived idx ↔ ∃ datagram ∈ partArrivals, HasByte datagram idx)
    (patched : Patched 0 fileA.content arrived before after) :
    after = writeAll 0 partWrites before := by
  have last := hasByte_iff (carries_sampleDatagram "a" 12 8
    (show [9, 10, 11, 12].length = 4 from rfl) (by decide) (by decide))
  have first := hasByte_iff (carries_sampleDatagram "a" 12 0
    (show [1, 2, 3, 4].length = 4 from rfl) (by decide) (by decide))
  apply patched.eq_writeAll
  · simp only [partWrites, List.forall_mem_cons, Within]
    decide
  · intro idx
    rw [same]
    simp only [partArrivals, partWrites, List.exists_mem_cons_iff, List.not_mem_nil, false_and,
      exists_false, or_false, last, first]
    rfl

theorem receiveLoop_append (earlier later : List (Except ErrorKind Reader))
    (through : (receiveLoop fs outputPath blockSize earlier).2 = some (.ok ())) :
    (receiveLoop fs outputPath blockSize (earlier ++ later)).1 =
      (receiveLoop fs outputPath blockSize earlier).1 ++
        (receiveLoop fs outputPath blockSize later).1 := by
  induction earlier with
  | nil => rfl
  | cons connection earlier inductionHypothesis =>
    cases connection with
    | error kind => cases through
    | ok stream =>
      simp only [receiveLoop, List.cons_append] at through ⊢
      generalize processStream fs outputPath blockSize stream = processed at through ⊢
      obtain ⟨writes, result⟩ := processed
      cases result with
      | none => cases through
      | some result =>
        cases result with
        | panic => cases through
        | ok | err => simp only [inductionHypothesis through, List.append_assoc]

/-- A write to the file that its path leads to, through links and `..` if need be. -/
def FileWrite.resolved {κ : Type*} (resolve : Path → κ) (write : FileWrite) : κ × Write UInt8 :=
  (resolve write.path, (write.offset.toNat, write.payload))

/-- When the receiver has got through some connections, whatever came over them, whatever failed and
    whichever files paths lead to, then the same connections once more change nothing. -/
theorem received_again {κ : Type*} [DecidableEq κ] (resolve : Path → κ)
    (through : (receiveLoop fs outputPath blockSize connections).2 = some (.ok ()))
    (files : Store κ UInt8) :
    files.putAll 0 ((receive fs (.ok ()) (.ok (connections ++ connections)) outputPath
        blockSize).1.map (FileWrite.resolved resolve)) =
      files.putAll 0 ((receive fs (.ok ()) (.ok connections) outputPath blockSize).1.map
        (FileWrite.resolved resolve)) := by
  have twice : (receive fs (.ok ()) (.ok (connections ++ connections)) outputPath blockSize).1 =
      _ ++ _ := receiveLoop_append connections connections through
  rw [twice, List.map_append, Store.putAll_append]
  exact Store.putAll_again

/-- The second connection overwrites what the first one has written. -/
theorem received_again_sample :
    Disk.after (fun _ => some [1, 2, 3]) (receive permissive (.ok ())
        (.ok (twoConnections ++ twoConnections)) (asBytes "out") 293).1 =
      Disk.after (fun _ => some [1, 2, 3]) (receive permissive (.ok ()) (.ok twoConnections)
        (asBytes "out") 293).1 ∧
    (((Disk.after (fun _ => some [1, 2, 3]) (receive permissive (.ok ())
      (.ok (twoConnections ++ twoConnections)) (asBytes "out") 293).1).entry (asBytes "out")
        (asBytes "a")).getD [])[0]? = some 5 := by
  have positive : 0 < 293 := by decide
  have through := receiveLoop_result positive goOn_twoConnections (by simp [twoConnections])
  have again : Disk.after (fun _ => some [1, 2, 3]) _ = Disk.after (fun _ => some [1, 2, 3]) _ :=
    received_again Path.components through fun _ => some [1, 2, 3]
  refine ⟨again, ?_⟩
  rw [again]
  exact (overwritten_entry positive goOn_twoConnections named_twoConnections _
    (show PlainName (asBytes "a") by decide)).inPlace 0 5 lastByteFor_twoConnections.1

end GarudaCodec.FileTransfer
