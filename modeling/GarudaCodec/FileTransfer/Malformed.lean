import GarudaCodec.FileTransfer.Confinement

/-! # Malformed datagrams

A buffer that is not a header is skipped, but one that announces more payload than it holds ends
the run with a panic.  So malformed buffers are without effect exactly as long as none of them is
of the second kind.
-/

namespace GarudaCodec.FileTransfer

open GarudaCodec.Foundation
open GarudaCodec.Foundation.Readers

/-- The header is not accepted, or announces more payload than stands behind it. -/
def isMalformed (datagram : List UInt8) : Bool :=
  match DatagramHeader.deserialize datagram with
  | .ok header => decide (datagram.length - datagramHeaderLen < header.payloadLength.toNat)
  | _ => true

/-- The header is accepted, but announces more payload than stands behind it. -/
def Oversized (datagram : List UInt8) : Prop :=
  ∃ header, DatagramHeader.deserialize datagram = .ok header ∧
    datagram.length - datagramHeaderLen < header.payloadLength.toNat

variable {outputPath : Path} {blockSize : Nat} {datagram : List UInt8}

theorem fits_iff {header : DatagramHeader}
    (reads : DatagramHeader.deserialize datagram = .ok header) :
    Fits datagram header ↔ ¬datagram.length - datagramHeaderLen < header.payloadLength.toNat := by
  have enough := DatagramHeader.length_of_deserialize reads
  rw [Fits]
  omega

/-! ## One datagram -/

/-- What a turn of the loop does with a datagram while the file system works: only an oversized one
    ends the loop, and only a well-formed one writes. -/
theorem handleDatagram_permissive (outputPath : Path) (datagram : List UInt8) :
    (Oversized datagram ∧ handleDatagram permissive outputPath datagram = ([], .panic)) ∨
    (¬Oversized datagram ∧ isMalformed datagram = true ∧
      handleDatagram permissive outputPath datagram = ([], .ok ())) ∨
    (¬Oversized datagram ∧ isMalformed datagram = false ∧
      ∃ write, handleDatagram permissive outputPath datagram = ([write], .ok ())) := by
  have turn := handleDatagram_turn permissive outputPath datagram
  generalize handleDatagram permissive outputPath datagram = outcome at turn ⊢
  cases turn with
  | rejected rejected => simp [Oversized, isMalformed, rejected]
  | tooShort reads short =>
    rw [fits_iff reads, not_not] at short
    exact Or.inl ⟨⟨_, reads, short⟩, rfl⟩
  | refused reads fits refused => cases refused
  | failed reads fits opens failed => cases failed
  | written reads fits opens written =>
    rw [fits_iff reads] at fits
    simp [Oversized, isMalformed, reads, fits]

theorem Oversized.isMalformed (large : Oversized datagram) : isMalformed datagram = true := by
  obtain ⟨header, reads, more⟩ := large
  rw [FileTransfer.isMalformed, reads]
  exact decide_eq_true more

theorem Oversized.handled (large : Oversized datagram) :
    handleDatagram permissive outputPath datagram = ([], .panic) := by
  rcases handleDatagram_permissive outputPath datagram with ⟨-, panics⟩ | ⟨fine, -⟩ | ⟨fine, -⟩
  · exact panics
  · exact absurd large fine
  · exact absurd large fine

theorem writes_of_wellFormed (outputPath : Path) (well : isMalformed datagram = false) :
    ∃ write, handleDatagram permissive outputPath datagram = ([write], .ok ()) := by
  rcases handleDatagram_permissive outputPath datagram with
    ⟨large, -⟩ | ⟨-, malformed, -⟩ | ⟨-, -, written⟩
  · cases well.symm.trans large.isMalformed
  · cases well.symm.trans malformed
  · exact written

/-! ## Streams -/

/-- A run panics exactly if it reads an oversized datagram. -/
theorem processStream_panic_iff (stream : Reader) :
    (processStream permissive outputPath blockSize stream).2 = some .panic ↔
      ∃ datagram ∈ received blockSize stream, Oversized datagram := by
  rcases Nat.eq_zero_or_pos blockSize with rfl | positive
  · rw [processStream, received]
    simp
  induction stream using readExactWith_induction onReadError positive with
  | error reads =>
    rw [processStream_error positive reads, received_error reads]
    simp
  | @ok stream buffer rest reads inductionHypothesis =>
    rw [processStream_ok positive reads, received_ok positive reads]
    rcases handleDatagram_permissive outputPath buffer with
      ⟨oversized, handled⟩ | ⟨fine, -, handled⟩ | ⟨fine, -, write, handled⟩
    · simp [handled, oversized]
    · simp [handled, fine, inductionHypothesis]
    · simp [handled, fine, inductionHypothesis]

theorem writesOf_filter {datagrams : List (List UInt8)}
    (fine : ∀ datagram ∈ datagrams, ¬Oversized datagram) :
    writesOf permissive outputPath (datagrams.filter fun datagram => !isMalformed datagram) =
      writesOf permissive outputPath datagrams := by
  induction datagrams with
  | nil => rfl
  | cons datagram datagrams inductionHypothesis =>
    obtain ⟨first, rest⟩ := List.forall_mem_cons.mp fine
    have later := inductionHypothesis rest
    rcases handleDatagram_permissive outputPath datagram with
      ⟨oversized, -⟩ | ⟨-, malformed, handled⟩ | ⟨-, well, write, handled⟩
    · exact absurd oversized first
    · simp [malformed, writesOf, handled, later]
    · simp [well, writesOf, handled, later]

/-! ## Datagrams to run on -/

/-- A datagram with one byte of payload, under any header fields. -/
def oneByteDatagram (payloadLength : UInt32) (name : List UInt8) (byte : UInt8) : List UInt8 :=
  DatagramHeader.layout ⟨Uuid.nil, 1, 0, payloadLength, ""⟩ name ++ [byte]

def wellFormed : List UInt8 := oneByteDatagram 1 (asBytes "a") 7
def notUtf8 : List UInt8 := oneByteDatagram 1 [0xFF] 8
def oversized : List UInt8 := oneByteDatagram 2 (asBytes "a") 9

theorem length_oneByteDatagram (payloadLength : UInt32) {name : List UInt8} (byte : UInt8)
    (fits : name.length ≤ fileNameLen) :
    (oneByteDatagram payloadLength name byte).length = 293 := by
  rw [oneByteDatagram, List.length_append, DatagramHeader.length_layout _ fits]
  rfl

theorem deserialize_oneByteDatagram (payloadLength : UInt32) (byte : UInt8) :
    DatagramHeader.deserialize (oneByteDatagram payloadLength (asBytes "a") byte) =
      .ok ⟨Uuid.nil, 1, 0, payloadLength, "a"⟩ :=
  DatagramHeader.deserialize_layout _ [byte] (by decide) (by decide)

theorem received_oneByte (datagrams : List (List UInt8))
    (sizes : ∀ datagram ∈ datagrams, datagram.length = 293) :
    received 293 (deliver datagrams) = datagrams := by
  have nonempty : ∀ datagram ∈ datagrams, datagram ≠ [] := by
    intro datagram member empty
    have size := sizes datagram member
    rw [empty] at size
    cases size
  exact received_run (quiet_deliver nonempty) (by decide) sizes (contents_deliver datagrams)

theorem deserialize_notUtf8 : DatagramHeader.deserialize notUtf8 = .err .invalidUtf8 := by
  have enough : datagramHeaderLen ≤ notUtf8.length := by
    rw [notUtf8, length_oneByteDatagram 1 8 (by decide)]
    decide
  have name : nameBytes notUtf8 = [0xFF] :=
    DatagramHeader.nameBytes_layout _ [8] (by decide)
  have invalid : fromUtf8 [0xFF] = none := by decide
  rw [DatagramHeader.deserialize_of_length enough, strFromUtf8, name, invalid]
  rfl

theorem oversized_oversized : Oversized oversized := by
  refine ⟨_, deserialize_oneByteDatagram 2 9, ?_⟩
  rw [oversized, length_oneByteDatagram 2 9 (by decide)]
  decide

theorem isMalformed_notUtf8 : isMalformed notUtf8 = true := by
  rw [isMalformed, deserialize_notUtf8]

theorem isMalformed_wellFormed : isMalformed wellFormed = false := by
  have length := length_oneByteDatagram 1 7 (show (asBytes "a").length ≤ fileNameLen by decide)
  rw [isMalformed, wellFormed, deserialize_oneByteDatagram]
  simp only [length]
  decide

theorem received_samples :
    received 293 (deliver [notUtf8, wellFormed]) = [notUtf8, wellFormed] ∧
      received 293 (deliver [oversized, wellFormed]) = [oversized, wellFormed] ∧
      received 293 (deliver [wellFormed]) = [wellFormed] := by
  have invalid := length_oneByteDatagram 1 8 (show [0xFF].length ≤ fileNameLen by decide)
  have long := length_oneByteDatagram 2 9 (show (asBytes "a").length ≤ fileNameLen by decide)
  have well := length_oneByteDatagram 1 7 (show (asBytes "a").length ≤ fileNameLen by decide)
  exact ⟨received_oneByte _ (by simp [notUtf8, wellFormed, invalid, well]),
    received_oneByte _ (by simp [oversized, wellFormed, long, well]),
    received_oneByte _ (by simp [wellFormed, well])⟩

/-! ## Skipping malformed datagrams -/

/-- Malformed datagrams do no harm, neither to the run nor to the other datagrams, exactly if none
    that was read is oversized. -/
theorem malformed_skipped_iff {stream pruned : Reader}
    (removed : received blockSize pruned =
      (received blockSize stream).filter fun datagram => !isMalformed datagram) :
    ((processStream permissive outputPath blockSize stream).2 ≠ some .panic ∧
        (processStream permissive outputPath blockSize stream).1 =
          (processStream permissive outputPath blockSize pruned).1) ↔
      ∀ datagram ∈ received blockSize stream, ¬Oversized datagram := by
  have panics : (processStream permissive outputPath blockSize stream).2 ≠ some .panic ↔
      ∀ datagram ∈ received blockSize stream, ¬Oversized datagram := by
    rw [ne_eq, processStream_panic_iff]
    simp
  rw [panics, and_iff_left_iff_imp]
  intro fine
  rw [processStream_writes, processStream_writes, removed, writesOf_filter fine]

theorem malformed_skipped_iff_sample :
    (processStream permissive (asBytes "out") 293 (deliver [notUtf8, wellFormed])).2 ≠
        some .panic ∧
      (processStream permissive (asBytes "out") 293 (deliver [notUtf8, wellFormed])).1 =
        (processStream permissive (asBytes "out") 293 (deliver [wellFormed])).1 := by
  obtain ⟨whole, -, pruned⟩ := received_samples
  refine (malformed_skipped_iff ?_).mpr ?_
  · rw [whole, pruned]
    simp [isMalformed_notUtf8, isMalformed_wellFormed]
  · rw [whole]
    simp only [List.forall_mem_cons, List.not_mem_nil, false_imp_iff, implies_true, and_true]
    constructor
    · rintro ⟨header, reads, -⟩
      rw [deserialize_notUtf8] at reads
      cases reads
    · intro large
      cases isMalformed_wellFormed.symm.trans large.isMalformed

/-- An oversized datagram ends the run before the one behind it is written. -/
theorem oversized_panics :
    isMalformed oversized = true ∧
      processStream permissive (asBytes "out") 293 (deliver [oversized, wellFormed]) =
        ([], some .panic) ∧
      (processStream permissive (asBytes "out") 293 (deliver [wellFormed])).1 ≠ [] := by
  obtain ⟨-, stopped, alone⟩ := received_samples
  refine ⟨oversized_oversized.isMalformed, Prod.ext ?_ ?_, ?_⟩
  · rw [processStream_writes, stopped, writesOf, oversized_oversized.handled]
  · rw [processStream_panic_iff, stopped]
    exact ⟨oversized, List.mem_cons_self, oversized_oversized⟩
  · obtain ⟨write, handled⟩ := writes_of_wellFormed (asBytes "out") isMalformed_wellFormed
    rw [processStream_writes, alone, writesOf, handled]
    exact List.cons_ne_nil _ _

end GarudaCodec.FileTransfer
