import Mathlib.Data.Fin.Tuple.Basic
import Mathlib.Data.List.FinRange
import GarudaCodec.Foundation.JoinHandles
import GarudaCodec.Core.Decoder

/-! # `encoder.rs` and `decoder.rs`: starting and waiting

`start_encoding` and `start_decoding` make the threads of the two pipelines and keep their handles;
`wait` joins them.  The number of workers is a parameter of both structures.  A start that has
returned has dropped its own sender of the shared queue, so that only the workers have one.
-/

namespace GarudaCodec.Core

open GarudaCodec.Foundation
open GarudaCodec.Foundation.Readers
open GarudaCodec.Foundation.Pipeline
open GarudaCodec.Core.Io

variable {rq : Raptorq} {workers : Nat}

/-- The errors `start_encoding` and `wait` return; the dispatcher's is that of the random number
    its numbering starts with. -/
inductive EncoderError where
  | blockEncoder (error : BlockEncoderError)
  | blockDispatcher (kind : ErrorKind)
  | invalidState (message : String)
deriving DecidableEq, Repr

inductive DecoderError where
  | blockDecoder (error : BlockDecoderError)
  | invalidState (message : String)
deriving DecidableEq, Repr

structure Encoder (workers : Nat) where
  blockSize : Nat
  maxPacketSize : UInt16
  repairPacketsPerBlock : UInt32
  handles : Handles (Fin workers)

structure Decoder (workers : Nat) where
  blockSize : Nat
  maxPacketSize : UInt16
  handles : Handles (Fin workers)

def Encoder.new (workers blockSize : Nat) (maxPacketSize : UInt16)
    (repairPacketsPerBlock : UInt32) : Encoder workers where
  blockSize := blockSize
  maxPacketSize := maxPacketSize
  repairPacketsPerBlock := repairPacketsPerBlock
  handles := .empty

def Decoder.new (workers blockSize : Nat) (maxPacketSize : UInt16) : Decoder workers where
  blockSize := blockSize
  maxPacketSize := maxPacketSize
  handles := .empty

/-- Makes a worker for each thread, one after the other, and stops at the first that fails. -/
def newWorkers {ε ω : Type} (new : Outcome ε ω) : (count : Nat) → Outcome ε (Fin count → ω)
  | 0 => .ok Fin.elim0
  | count + 1 => do
    let worker ← new
    let others ← newWorkers new count
    .ok (Fin.cons worker others)

/-- `BlockDispatcher::new`, together with the stream it is to read. -/
def BlockDispatcher.new (blockSize : Nat) (getRandomU8 : Except ErrorKind UInt8)
    (inputStream : Reader) : Outcome EncoderError BlockDispatcher := do
  let currentBlockId ← Outcome.ofExcept .blockDispatcher getRandomU8
  .ok { blockSize, currentBlockId, input := inputStream, position := 0 }

/-- `PacketDispatcher::new` with the inferred size, for a stream that ends. -/
def PacketDispatcher.new (rq : Raptorq) (blockSize : Nat) (maxPacketSize : UInt16)
    (inputStream : Reader) : Outcome DecoderError PacketDispatcher := do
  let packetSize ← (inferPacketSize rq blockSize maxPacketSize).mapErr .blockDecoder
  .ok { packetSize, input := inputStream, isOpen := false }

def Encoder.startEncoding (rq : Raptorq) (encoder : Encoder workers)
    (getRandomU8 : Except ErrorKind UInt8) (inputStream : Reader) :
    Outcome EncoderError (EncoderState rq workers) × Encoder workers :=
  let newBlockEncoder := (BlockEncoder.new rq encoder.blockSize encoder.maxPacketSize
    encoder.repairPacketsPerBlock).mapErr .blockEncoder
  -- the workers are alike, so if making one fails, none has been started
  let (result, handles) := encoder.handles.start (List.finRange workers)
    (newWorkers newBlockEncoder workers)
    (BlockDispatcher.new encoder.blockSize getRandomU8 inputStream)
  (result, { encoder with handles })

def Decoder.startDecoding (rq : Raptorq) (decoder : Decoder workers) (inputStream : Reader) :
    Outcome DecoderError (DecoderState rq workers) × Decoder workers :=
  let newBlockDecoder :=
    (BlockDecoder.new rq decoder.blockSize decoder.maxPacketSize).mapErr .blockDecoder
  let (result, handles) := decoder.handles.start (List.finRange workers)
    (newWorkers newBlockDecoder workers)
    (PacketDispatcher.new rq decoder.blockSize decoder.maxPacketSize inputStream)
  (result, { decoder with handles })

/-- `Encoder::wait`, while the threads have returned like this. -/
def Encoder.wait (encoder : Encoder workers) (exit? : Thread (Fin workers) → Option Exit) :
    Option (Outcome EncoderError Unit) × Encoder workers :=
  let (result, handles) := encoder.handles.wait
    (.invalidState "Block dispatcher not initialized")
    (.invalidState "Packet forwarder not initialized") exit?
  (result, { encoder with handles })

/-- `Decoder::wait`, while the threads have returned like this. -/
def Decoder.wait (decoder : Decoder workers) (exit? : Thread (Fin workers) → Option Exit) :
    Option (Outcome DecoderError Unit) × Decoder workers :=
  let (result, handles) := decoder.handles.wait
    (.invalidState "Packet dispatcher not initialized")
    (.invalidState "Block forwarder not initialized") exit?
  (result, { decoder with handles })

/-- `wait` is the wait for the handles, with its own messages. -/
theorem Encoder.wait_fst (encoder : Encoder workers) :
    ∃ noSource noSink, ∀ exit?,
      (encoder.wait exit?).1 = (encoder.handles.wait noSource noSink exit?).1 :=
  ⟨_, _, fun _ => rfl⟩

theorem Decoder.wait_fst (decoder : Decoder workers) :
    ∃ noSource noSink, ∀ exit?,
      (decoder.wait exit?).1 = (decoder.handles.wait noSource noSink exit?).1 :=
  ⟨_, _, fun _ => rfl⟩

/-! ## What a start has made -/

theorem newWorkers_eq_ok {ε ω : Type} {new : Outcome ε ω} {count : Nat} {made : Fin count → ω}
    (makes : newWorkers new count = .ok made) (positive : 0 < count) :
    ∃ worker, new = .ok worker ∧ made = fun _ => worker := by
  have alike : ∀ key, new = .ok (made key) := by
    clear positive
    induction count with
    | zero => exact fun key => key.elim0
    | succ count inductionHypothesis =>
      obtain ⟨worker, first, rest⟩ := Outcome.bind_eq_ok.mp makes
      obtain ⟨others, later, same⟩ := Outcome.bind_eq_ok.mp rest
      cases same
      intro key
      cases key using Fin.cases with
      | zero => exact first
      | succ key => exact inductionHypothesis later key
  refine ⟨made ⟨0, positive⟩, alike _, funext fun key => ?_⟩
  have same := (alike key).symm.trans (alike ⟨0, positive⟩)
  exact Outcome.ok.inj same

theorem newWorkers_ok {ε ω : Type} (worker : ω) (count : Nat) :
    newWorkers (.ok worker : Outcome ε ω) count = .ok fun _ => worker := by
  induction count with
  | zero =>
    rw [newWorkers]
    congr 1
    funext key
    exact key.elim0
  | succ count inductionHypothesis =>
    rw [newWorkers, Outcome.bind_ok, inductionHypothesis, Outcome.bind_ok]
    congr 1
    funext key
    cases key using Fin.cases with
    | zero => rfl
    | succ key => rfl

variable {blockSize : Nat} {maxPacketSize : UInt16} {repair : UInt32}

/-- An encoder whose block encoder can be made starts. -/
theorem Encoder.startEncoding_ok (workers : Nat) {blockEncoder : BlockEncoder rq}
    (created : BlockEncoder.new rq blockSize maxPacketSize repair = .ok blockEncoder)
    (currentBlockId : UInt8) (input : Reader) :
    ∃ encoder, (Encoder.new workers blockSize maxPacketSize repair).startEncoding rq
      (.ok currentBlockId) input =
        (.ok (State.start ⟨blockSize, currentBlockId, input, 0⟩ fun _ => blockEncoder),
          encoder) := by
  have makes : (BlockEncoder.new rq blockSize maxPacketSize repair).mapErr
      EncoderError.blockEncoder = .ok blockEncoder := Outcome.mapErr_eq_ok.mpr created
  rw [Encoder.startEncoding, Encoder.new]
  simp only [makes, newWorkers_ok, Handles.start, BlockDispatcher.new, Outcome.ofExcept_ok,
    Outcome.bind_ok]
  exact ⟨_, rfl⟩

theorem Encoder.startEncoding_eq_ok (positive : 0 < workers) {random : Except ErrorKind UInt8}
    {input : Reader} {start : EncoderState rq workers} {encoder : Encoder workers}
    (starts : (Encoder.new workers blockSize maxPacketSize repair).startEncoding rq random input =
      (.ok start, encoder)) :
    (∃ currentBlockId blockEncoder, random = .ok currentBlockId ∧
      BlockEncoder.new rq blockSize maxPacketSize repair = .ok blockEncoder ∧
      start = State.start ⟨blockSize, currentBlockId, input, 0⟩ fun _ => blockEncoder) ∧
    encoder.handles = .all (List.finRange workers) := by
  obtain ⟨result, same⟩ := Prod.mk.inj starts
  obtain ⟨made, dispatcher, makes, makesSource, rfl, handles⟩ :=
    Handles.start_eq_ok (Prod.ext result rfl)
  obtain ⟨blockEncoder, created, rfl⟩ := newWorkers_eq_ok makes positive
  subst same
  cases random with
  | error kind => cases makesSource
  | ok currentBlockId =>
    cases makesSource
    exact ⟨⟨currentBlockId, blockEncoder, rfl, Outcome.mapErr_eq_ok.mp created, rfl⟩, handles⟩

theorem Decoder.startDecoding_eq_ok (positive : 0 < workers) {input : Reader}
    {start : DecoderState rq workers} {decoder : Decoder workers}
    (starts : (Decoder.new workers blockSize maxPacketSize).startDecoding rq input =
      (.ok start, decoder)) :
    (∃ packetSize blockDecoder, inferPacketSize rq blockSize maxPacketSize = .ok packetSize ∧
      BlockDecoder.new rq blockSize maxPacketSize = .ok blockDecoder ∧
      start = State.start ⟨packetSize, input, false⟩ fun _ => blockDecoder) ∧
    decoder.handles = .all (List.finRange workers) := by
  obtain ⟨result, same⟩ := Prod.mk.inj starts
  obtain ⟨made, dispatcher, makes, makesSource, rfl, handles⟩ :=
    Handles.start_eq_ok (Prod.ext result rfl)
  obtain ⟨blockDecoder, created, rfl⟩ := newWorkers_eq_ok makes positive
  subst same
  obtain ⟨packetSize, inferred, built⟩ := Outcome.bind_eq_ok.mp makesSource
  cases built
  exact ⟨⟨packetSize, blockDecoder, Outcome.mapErr_eq_ok.mp inferred,
    Outcome.mapErr_eq_ok.mp created, rfl⟩, handles⟩

/-- After a start, `wait` succeeds exactly if all threads have returned and none has panicked. -/
theorem Encoder.wait_eq_ok_iff {encoder : Encoder workers}
    (handles : encoder.handles = .all (List.finRange workers)) {s : EncoderState rq workers} :
    (encoder.wait s.exit?).1 = some (.ok ()) ↔
      AllEnded s ∧ ∀ thread, s.exit? thread ≠ some .panicked := by
  obtain ⟨noSource, noSink, waits⟩ := encoder.wait_fst
  rw [waits, handles]
  exact Pipeline.wait_eq_ok_iff List.mem_finRange noSource noSink

theorem Decoder.wait_eq_ok_iff {decoder : Decoder workers}
    (handles : decoder.handles = .all (List.finRange workers)) {s : DecoderState rq workers} :
    (decoder.wait s.exit?).1 = some (.ok ()) ↔
      AllEnded s ∧ ∀ thread, s.exit? thread ≠ some .panicked := by
  obtain ⟨noSource, noSink, waits⟩ := decoder.wait_fst
  rw [waits, handles]
  exact Pipeline.wait_eq_ok_iff List.mem_finRange noSource noSink

/-- After a start that failed there is no dispatcher to wait for. -/
theorem Encoder.wait_of_failed_start {random : Except ErrorKind UInt8} {input : Reader}
    {outcome : Outcome EncoderError (EncoderState rq workers)} {encoder : Encoder workers}
    (starts : (Encoder.new workers blockSize maxPacketSize repair).startEncoding rq random input =
      (outcome, encoder))
    (failed : ∀ start, outcome ≠ .ok start) (exit? : Thread (Fin workers) → Option Exit) :
    (encoder.wait exit?).1 =
      some (.err (.invalidState "Block dispatcher not initialized")) := by
  obtain ⟨result, rfl⟩ := Prod.mk.inj starts
  exact Handles.wait_of_failed_start (Prod.ext result rfl) failed _ _ exit?

theorem Decoder.wait_of_failed_start {input : Reader}
    {outcome : Outcome DecoderError (DecoderState rq workers)} {decoder : Decoder workers}
    (starts : (Decoder.new workers blockSize maxPacketSize).startDecoding rq input =
      (outcome, decoder))
    (failed : ∀ start, outcome ≠ .ok start) (exit? : Thread (Fin workers) → Option Exit) :
    (decoder.wait exit?).1 =
      some (.err (.invalidState "Packet dispatcher not initialized")) := by
  obtain ⟨result, rfl⟩ := Prod.mk.inj starts
  exact Handles.wait_of_failed_start (Prod.ext result rfl) failed _ _ exit?

end GarudaCodec.Core
