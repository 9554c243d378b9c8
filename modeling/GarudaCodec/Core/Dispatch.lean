import GarudaCodec.Core.Encoder
import GarudaCodec.Core.SystematicCodec

/-! # Dispatching from any reader

The reads of the block dispatcher go on through short reads and retried failures until one of a few
events ends them.  What is dispatched depends only on the bytes read until then, and how the loop
returns only on the event.
-/

namespace GarudaCodec.Core

open GarudaCodec.Foundation
open GarudaCodec.Foundation.Chunks
open GarudaCodec.Foundation.Readers
open GarudaCodec.Foundation.Pipeline
open GarudaCodec.Core.Io

/-- The kinds of failed reads after which `read_exact` looks at the stop flag. -/
def Retried (kind : ErrorKind) : Prop :=
  kind = .interrupted ∨ kind = .wouldBlock ∨ kind = .timedOut

/-- The events that end the reads, and how the loop returns after them. -/
inductive Ending : Reader → Exit → Prop
  | endOfFile : Ending [] .ok
  | emptyRead {rest} : Ending (.data [] :: rest) .ok
  | stopped {kind rest} : Retried kind → Ending (.fail kind true :: rest) .ok
  -- the match of `dispatch` takes this failure for the end of the stream
  | unexpectedEof {stopReading rest} : Ending (.fail .unexpectedEof stopReading :: rest) .ok
  | failed {kind stopReading rest} : ¬Retried kind → kind ≠ .unexpectedEof →
    Ending (.fail kind stopReading :: rest) .failed

theorem onError_retried {kind : ErrorKind} (retried : Retried kind) (stopReading : Bool) :
    onError kind stopReading = if stopReading then some .interrupted else none :=
  if_pos retried

theorem onError_other {kind : ErrorKind} (other : ¬Retried kind) (stopReading : Bool) :
    onError kind stopReading = some kind :=
  if_neg other

/-- An exact read that meets the event fails, with a kind that makes the loop return this way. -/
theorem Ending.reads {tail : Reader} {exit : Exit} (ending : Ending tail exit) {need : Nat}
    (positive : 0 < need) :
    ∃ kind rest, readExactWith onError tail need = (.error kind, rest) ∧ exitOf kind = exit := by
  cases ending with
  | endOfFile => exact ⟨_, _, readExactWith_nil positive, rfl⟩
  | emptyRead => exact ⟨_, _, readExactWith_empty positive, rfl⟩
  | stopped retried =>
    exact ⟨_, _, readExactWith_fail positive (onError_retried retried true), rfl⟩
  | unexpectedEof =>
    exact ⟨_, _, readExactWith_fail positive (onError_other (by simp [Retried]) _), rfl⟩
  | failed other notEof =>
    refine ⟨_, _, readExactWith_fail positive (onError_other other _), ?_⟩
    rw [exitOf, if_neg]
    rintro (eof | interrupted)
    · exact notEof eof
    · exact other (Or.inl interrupted)

/-- Every reader is quiet up to an event that ends its reads. -/
theorem exists_ending (input : Reader) :
    ∃ before tail exit, input = before ++ tail ∧ Quiet onError before ∧ Ending tail exit := by
  induction input with
  | nil => exact ⟨[], [], .ok, rfl, .nil, .endOfFile⟩
  | cons event input inductionHypothesis =>
    obtain ⟨before, tail, exit, rfl, quiet, ending⟩ := inductionHypothesis
    cases event with
    | data bytes =>
      by_cases empty : bytes = []
      · subst empty
        exact ⟨[], _, .ok, rfl, .nil, .emptyRead⟩
      · exact ⟨.data bytes :: before, tail, exit, rfl, .cons (by simpa [Quiet] using empty) quiet,
          ending⟩
    | fail kind stopReading =>
      by_cases retried : Retried kind
      · cases stopReading with
        | true => exact ⟨[], _, .ok, rfl, .nil, .stopped retried⟩
        | false =>
          have goesOn := onError_retried retried false
          exact ⟨.fail kind false :: before, tail, exit, rfl,
            .cons (by simpa [Quiet] using goesOn) quiet, ending⟩
      · by_cases eof : kind = .unexpectedEof
        · subst eof
          exact ⟨[], _, .ok, rfl, .nil, .unexpectedEof⟩
        · exact ⟨[], _, .failed, rfl, .nil, .failed retried eof⟩

/-! ## The loop -/

theorem numbered_cons (position : Nat) (id : UInt8) (chunk : List UInt8)
    (chunks : List (List UInt8)) :
    numbered position id (chunk :: chunks) =
      ⟨position, ⟨id, chunk⟩⟩ :: numbered (position + 1) (id + 1) chunks := by
  rw [numbered, List.mapIdx_cons, numbered]
  congr 1
  · simp
  · congr 1
    funext idx data
    rw [Nat.add_assoc, Nat.add_comm 1 idx, UInt8.ofNat_add, UInt8.add_assoc,
      UInt8.add_comm 1 (UInt8.ofNat idx)]
    rfl

theorem getElem?_numbered (position : Nat) (id : UInt8) (chunks : List (List UInt8)) (idx : Nat) :
    (numbered position id chunks)[idx]? =
      chunks[idx]?.map fun data => ⟨position + idx, ⟨id + UInt8.ofNat idx, data⟩⟩ := by
  rw [numbered, List.getElem?_mapIdx]

section Loop

variable {workers : Nat} {positive : 0 < workers} {before tail : Reader} {exit : Exit}

/-- The whole loop: it sends the complete chunks of what it has read, and returns as the event that
    ends its reads makes it. -/
theorem dispatches_iff (rq : Raptorq) (positive : 0 < workers) (quiet : Quiet onError before)
    (ending : Ending tail exit) {dispatcher : BlockDispatcher}
    (sizePositive : 0 < dispatcher.blockSize) (input : dispatcher.input = before ++ tail)
    (sent : List (Sourced Block)) (other : Exit) :
    (encoderProgram rq positive).Dispatches dispatcher sent other ↔
      sent = numbered dispatcher.position dispatcher.currentBlockId
        (chunksExact dispatcher.blockSize (contents before)) ∧ other = exit := by
  induction counted : (contents before).length using Nat.strong_induction_on
    generalizing before dispatcher sent with
  | h left inductionHypothesis =>
    by_cases enough : dispatcher.blockSize ≤ (contents before).length
    · obtain ⟨rest, reads, restQuiet, restContents⟩ := quiet.reads_append tail enough
      have sameReads : readExact dispatcher.input dispatcher.blockSize =
          (.ok ((contents before).take dispatcher.blockSize), rest ++ tail) := by
        rw [readExact, input, reads]
      have fetched : (encoderProgram rq positive).fetch dispatcher = _ :=
        BlockDispatcher.fetch_of_ok sameReads
      have shorter : (contents rest).length < left := by
        rw [restContents, List.length_drop]
        omega
      have firstChunk : chunksExact dispatcher.blockSize (contents before) =
          (contents before).take dispatcher.blockSize ::
            chunksExact dispatcher.blockSize (contents rest) := by
        conv_lhs => rw [← List.take_append_drop dispatcher.blockSize (contents before)]
        rw [chunksExact_append sizePositive (List.length_take_of_le enough), restContents]
      have later : ∀ others, (encoderProgram rq positive).Dispatches ⟨dispatcher.blockSize,
          dispatcher.currentBlockId + 1, rest ++ tail, dispatcher.position + 1⟩ others other ↔
          others = numbered (dispatcher.position + 1) (dispatcher.currentBlockId + 1)
            (chunksExact dispatcher.blockSize (contents rest)) ∧ other = exit :=
        fun others => inductionHypothesis _ shorter restQuiet (by exact sizePositive) rfl others rfl
      rw [Program.dispatches_item fetched, firstChunk, numbered_cons]
      simp only [later]
      constructor
      · rintro ⟨others, rfl, rfl, same⟩
        exact ⟨rfl, same⟩
      · rintro ⟨rfl, same⟩
        exact ⟨_, rfl, rfl, same⟩
    · have few := Nat.lt_of_not_le enough
      obtain ⟨kind, rest, reads, exits⟩ :=
        ending.reads (Nat.sub_pos_of_lt few)
      have sameReads : readExact dispatcher.input dispatcher.blockSize = (.error kind, rest) := by
        rw [readExact, input, quiet.reads_through tail few, reads]
        rfl
      have fetched : (encoderProgram rq positive).fetch dispatcher =
          some (.stop exit { dispatcher with input := rest }) :=
        exits ▸ BlockDispatcher.fetch_of_error sameReads
      rw [Program.dispatches_stop fetched, chunksExact_short few]
      rfl

end Loop

/-- The reads of any input end with some event, in front of which they are only cut short or
    retried; the loop then sends the complete chunks of the bytes read by then, numbered on from its
    first number, to the queues of their numbers, and it returns as the event makes it. -/
theorem dispatch_any_fragmentation (rq : Raptorq) {workers : Nat} (positive : 0 < workers)
    (dispatcher : BlockDispatcher) (sizePositive : 0 < dispatcher.blockSize) :
    (∃ before tail exit, dispatcher.input = before ++ tail ∧ Quiet onError before ∧
        Ending tail exit) ∧
      ∀ before tail exit, dispatcher.input = before ++ tail → Quiet onError before →
        Ending tail exit →
        ∃ sent, (∀ other otherExit,
            (encoderProgram rq positive).Dispatches dispatcher other otherExit ↔
              other = sent ∧ otherExit = exit) ∧
          sent.length = (contents before).length / dispatcher.blockSize ∧
          (∀ idx < sent.length, ∃ block, sent[idx]? = some block ∧
            block.item.data =
              ((contents before).drop (idx * dispatcher.blockSize)).take dispatcher.blockSize ∧
            block.item.id.toNat = (dispatcher.currentBlockId.toNat + idx) % 256 ∧
            ((encoderProgram rq positive).route block).val =
              (dispatcher.currentBlockId.toNat + idx) % 256 % workers) ∧
          (sent.map fun block => block.item.data) <+:
            chunksExact dispatcher.blockSize (contents dispatcher.input) := by
  refine ⟨exists_ending _, fun before tail exit input quiet ending => ?_⟩
  refine ⟨_, dispatches_iff rq positive quiet ending sizePositive input, ?_, ?_, ?_⟩
  · rw [length_numbered, length_chunksExact]
  · intro idx inside
    rw [length_numbered, length_chunksExact] at inside
    have id : (dispatcher.currentBlockId + UInt8.ofNat idx).toNat =
        (dispatcher.currentBlockId.toNat + idx) % 256 := by
      rw [UInt8.toNat_add, UInt8.toNat_ofNat']
      omega
    refine ⟨⟨dispatcher.position + idx, ⟨dispatcher.currentBlockId + UInt8.ofNat idx,
      chunkAt dispatcher.blockSize (contents before) idx⟩⟩, ?_, rfl, id, ?_⟩
    · rw [getElem?_numbered, chunksExact, List.getElem?_map, List.getElem?_range inside]
      rfl
    · show (dispatcher.currentBlockId + UInt8.ofNat idx).toNat % workers = _
      rw [id]
  · have datas : (numbered dispatcher.position dispatcher.currentBlockId
        (chunksExact dispatcher.blockSize (contents before))).map (fun block => block.item.data) =
          chunksExact dispatcher.blockSize (contents before) := by
      apply List.ext_getElem?
      intro idx
      rw [List.getElem?_map, getElem?_numbered, Option.map_map]
      exact Option.map_id'
    rw [datas, input, contents_append]
    exact chunksExact_prefix _ _ _

/-- Four bytes in two pieces with a timeout between them, and a stop after them. -/
def stoppedDispatcher : BlockDispatcher where
  blockSize := 2
  currentBlockId := 255
  input := [.data [1], .fail .timedOut false, .data [2, 3, 4], .fail .wouldBlock true]
  position := 0

theorem dispatch_any_fragmentation_sample :
    ∃ sent, (encoderProgram systematicCodec Nat.one_pos).Dispatches stoppedDispatcher sent .ok ∧
      sent.length = 2 := by
  have quiet : Quiet onError [.data [1], .fail .timedOut false, .data [2, 3, 4]] := by
    simp [Quiet, onError]
  have ending : Ending [.fail .wouldBlock true] .ok := .stopped (Or.inr (Or.inl rfl))
  obtain ⟨sent, runs, length, -⟩ :=
    (dispatch_any_fragmentation systematicCodec Nat.one_pos stoppedDispatcher (by decide)).2
      _ _ _ rfl quiet ending
  exact ⟨sent, (runs sent .ok).mpr ⟨rfl, rfl⟩, length⟩

/-- A reader that fails with `UnexpectedEof` of its own. -/
def brokenDispatcher : BlockDispatcher where
  blockSize := 2
  currentBlockId := 0
  input := [.data [1, 2, 3], .fail .unexpectedEof false]
  position := 0

/-- The loop returns without an error, although a read has failed with another kind than those
    that are retried. -/
theorem dispatch_hides_failure :
    (encoderProgram systematicCodec Nat.one_pos).Dispatches brokenDispatcher
        [⟨0, ⟨0, [1, 2]⟩⟩] .ok ∧
      ¬∃ sent, (encoderProgram systematicCodec Nat.one_pos).Dispatches brokenDispatcher sent
        .failed := by
  have quiet : Quiet onError [.data [1, 2, 3]] := by simp [Quiet]
  have runs := dispatches_iff systematicCodec Nat.one_pos quiet
    (Ending.unexpectedEof : Ending [.fail .unexpectedEof false] .ok)
    (show 0 < brokenDispatcher.blockSize by decide) rfl
  constructor
  · exact (runs _ _).mpr ⟨by decide, rfl⟩
  · rintro ⟨sent, fails⟩
    cases ((runs _ _).mp fails).2

end GarudaCodec.Core
