import GarudaCodec.FileTransfer.Receive

/-! # Where received files are written

The receiver joins the name of a datagram to the output directory as it is.  So the paths it opens
are direct children of that directory exactly as long as the names it meets lead there.
-/

namespace GarudaCodec.FileTransfer

open GarudaCodec.Foundation
open GarudaCodec.Foundation.Readers

/-- The name is plain, or is itself the absolute path of a direct child of the directory. -/
def Harmless (outputPath : Path) (name : List UInt8) : Prop :=
  PlainName name ∨ Path.isAbsolute name = true ∧ DirectChild outputPath name

/-- The datagram is accepted and its path is opened. -/
def Opens (fs : FileSystem) (outputPath : Path) (datagram : List UInt8) : Prop :=
  ∃ header, DatagramHeader.deserialize datagram = .ok header ∧ Fits datagram header ∧
    fs.openError (requested outputPath datagram header).path = none

/-- The datagram ends the loop: its payload is too short, or the file system fails. -/
def Stops (fs : FileSystem) (outputPath : Path) (datagram : List UInt8) : Prop :=
  ∃ header, DatagramHeader.deserialize datagram = .ok header ∧
    (¬Fits datagram header ∨ fs.openError (requested outputPath datagram header).path ≠ none ∨
      fs.writeError (requested outputPath datagram header) ≠ none)

/-- The loop gets to this datagram: none before it ends the loop. -/
def Reached (fs : FileSystem) (outputPath : Path) (datagrams : List (List UInt8))
    (datagram : List UInt8) : Prop :=
  ∃ before later, datagrams = before ++ datagram :: later ∧
    ∀ other ∈ before, ¬Stops fs outputPath other

variable {fs : FileSystem} {outputPath : Path}

theorem reached_nil {datagram : List UInt8} : ¬Reached fs outputPath [] datagram := by
  rintro ⟨before, later, split, -⟩
  simp at split

theorem reached_cons {head datagram : List UInt8} {datagrams : List (List UInt8)} :
    Reached fs outputPath (head :: datagrams) datagram ↔
      datagram = head ∨ ¬Stops fs outputPath head ∧ Reached fs outputPath datagrams datagram := by
  constructor
  · rintro ⟨before, later, split, goesOn⟩
    cases before with
    | nil => exact Or.inl (List.cons.inj split).1.symm
    | cons first before =>
      obtain ⟨rfl, rest⟩ := List.cons.inj split
      obtain ⟨headGoesOn, goesOn⟩ := List.forall_mem_cons.mp goesOn
      exact Or.inr ⟨headGoesOn, before, later, rest, goesOn⟩
  · rintro (rfl | ⟨headGoesOn, before, later, rfl, goesOn⟩)
    · exact ⟨[], datagrams, rfl, by simp⟩
    · exact ⟨head :: before, later, rfl, List.forall_mem_cons.mpr ⟨headGoesOn, goesOn⟩⟩

/-! ## One datagram -/

variable {datagram : List UInt8}

theorem requested_path {header : DatagramHeader}
    (reads : DatagramHeader.deserialize datagram = .ok header) :
    (requested outputPath datagram header).path = Path.join outputPath (nameBytes datagram) := by
  rw [requested, DatagramHeader.asBytes_fileName reads]

/-- A turn of the loop opens a path only for a datagram that is accepted and whose path opens. -/
theorem forall_handleDatagram {property : Path → Prop} :
    (∀ write ∈ (handleDatagram fs outputPath datagram).1, property write.path) ↔
      (Opens fs outputPath datagram → property (Path.join outputPath (nameBytes datagram))) := by
  have turn := handleDatagram_turn fs outputPath datagram
  generalize handleDatagram fs outputPath datagram = outcome at turn
  cases turn with
  | rejected rejected => simp [Opens, rejected]
  | tooShort reads short => simp [Opens, reads, short]
  | refused reads fits refused => simp [Opens, reads, refused]
  | failed reads fits opens failed =>
    rw [← requested_path reads]
    simp [Opens, reads, fits, opens]
  | written reads fits opens written =>
    rw [← requested_path reads]
    simp [Opens, reads, fits, opens]

/-- The loop goes on unless the datagram stops it. -/
theorem handleDatagram_goesOn :
    (handleDatagram fs outputPath datagram).2 = .ok () ↔ ¬Stops fs outputPath datagram := by
  have turn := handleDatagram_turn fs outputPath datagram
  generalize handleDatagram fs outputPath datagram = outcome at turn
  cases turn with
  | rejected rejected => simp [Stops, rejected]
  | tooShort reads short => simp [Stops, reads, short]
  | refused reads fits refused => simp [Stops, reads, refused]
  | failed reads fits opens failed => simp [Stops, reads, failed]
  | written reads fits opens written => simp [Stops, reads, fits, opens, written]

/-! ## Streams -/

theorem writesOf_goesOn {head : List UInt8} (goesOn : ¬Stops fs outputPath head)
    (datagrams : List (List UInt8)) :
    writesOf fs outputPath (head :: datagrams) =
      (handleDatagram fs outputPath head).1 ++ writesOf fs outputPath datagrams := by
  have well := handleDatagram_goesOn.mpr goesOn
  rw [writesOf]
  generalize handleDatagram fs outputPath head = turn at well ⊢
  obtain ⟨writes, result⟩ := turn
  cases well
  rfl

theorem writesOf_stops {head : List UInt8} (stops : Stops fs outputPath head)
    (datagrams : List (List UInt8)) :
    writesOf fs outputPath (head :: datagrams) = (handleDatagram fs outputPath head).1 := by
  have ended : (handleDatagram fs outputPath head).2 ≠ .ok () :=
    fun well => handleDatagram_goesOn.mp well stops
  rw [writesOf]
  generalize handleDatagram fs outputPath head = turn at ended ⊢
  obtain ⟨writes, result⟩ := turn
  cases result with
  | ok value => exact absurd rfl ended
  | err kind => rfl
  | panic => rfl

/-- The opened paths of a stream are those of the datagrams the loop gets to. -/
theorem forall_writesOf {property : Path → Prop} (datagrams : List (List UInt8)) :
    (∀ write ∈ writesOf fs outputPath datagrams, property write.path) ↔
      ∀ datagram, Reached fs outputPath datagrams datagram → Opens fs outputPath datagram →
        property (Path.join outputPath (nameBytes datagram)) := by
  induction datagrams with
  | nil => simp [writesOf, reached_nil]
  | cons head datagrams inductionHypothesis =>
    simp only [reached_cons]
    -- the datagrams behind one that ends the loop are not reached
    by_cases stops : Stops fs outputPath head
    · rw [writesOf_stops stops, forall_handleDatagram]
      simp [stops]
    · rw [writesOf_goesOn stops, List.forall_mem_append, inductionHypothesis,
        forall_handleDatagram]
      simp only [stops, not_false_eq_true, true_and, or_imp, forall_and, forall_eq]

/-- Every path that is opened is a direct child of the output directory exactly when every name
    leads there, of all datagrams that the loop gets to and whose paths it opens. -/
theorem opened_are_direct_children_iff (fs : FileSystem) (outputPath : Path) (blockSize : Nat)
    (stream : Reader) :
    (∀ write ∈ (processStream fs outputPath blockSize stream).1,
        DirectChild outputPath write.path) ↔
      ∀ datagram, Reached fs outputPath (received blockSize stream) datagram →
        Opens fs outputPath datagram → Harmless outputPath (nameBytes datagram) := by
  rw [processStream_writes, forall_writesOf]
  simp only [Harmless, Path.directChild_join]

/-- A header whose name leads out of the output directory. -/
def escapingHeader : DatagramHeader where
  fileId := Uuid.nil
  fileLength := 1
  chunkOffset := 0
  payloadLength := 1
  fileName := "../x"

/-- The bytes of that header, and one byte of payload. -/
def escapingDatagram : List UInt8 := escapingHeader.layout (asBytes "../x") ++ [7]

theorem deserialize_escapingDatagram :
    DatagramHeader.deserialize escapingDatagram = .ok escapingHeader :=
  escapingHeader.deserialize_layout [7] (by decide) (by decide)

theorem length_escapingDatagram : escapingDatagram.length = 293 := by
  rw [escapingDatagram, List.length_append, escapingHeader.length_layout (by decide)]
  rfl

theorem slice_escapingDatagram :
    slice escapingDatagram datagramHeaderLen
      (datagramHeaderLen + escapingHeader.payloadLength.toNat) = some [7] := by
  have fits : Fits escapingDatagram escapingHeader := by
    rw [Fits, length_escapingDatagram]
    decide
  rw [slice_field fits, field, escapingDatagram,
    List.drop_left' (escapingHeader.length_layout (by decide))]
  rfl

/-- A file is written next to the output directory `out`. -/
theorem opened_escapes :
    (processStream permissive (asBytes "out") 293 (deliver [escapingDatagram])).1 =
        [⟨asBytes "out/../x", 0, [7]⟩] ∧
      ¬DirectChild (asBytes "out") (asBytes "out/../x") := by
  have joined : Path.join (asBytes "out") (asBytes escapingHeader.fileName) =
    asBytes "out/../x" := by decide
  have handled : handleDatagram permissive (asBytes "out") escapingDatagram =
      ([⟨asBytes "out/../x", 0, [7]⟩], .ok ()) := by
    simp only [handleDatagram, deserialize_escapingDatagram, slice_escapingDatagram, joined]
    rfl
  have size := length_escapingDatagram
  constructor
  · have quiet : Quiet onReadError (deliver [escapingDatagram]) := by
      apply quiet_deliver
      simp only [List.mem_singleton, forall_eq]
      intro empty
      simp [empty] at size
    rw [processStream_run quiet (by decide) (by simpa using size) (contents_deliver _)
      (by simp [handled]), List.flatMap_singleton, handled]
  · rw [← joined, Path.directChild_join]
    rintro (plain | ⟨absolute, -⟩)
    · exact absurd plain (by decide)
    · exact absurd absolute (by decide)

end GarudaCodec.FileTransfer
