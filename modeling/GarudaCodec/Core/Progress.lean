import Mathlib.Order.WithBot
import GarudaCodec.Foundation.PipelineProgress
import GarudaCodec.Core.Guarantees
import GarudaCodec.Core.Waiting

/-! # A link always gets through

As long as all writes succeed and the channel neither loses a packet nor closes before its end, no
schedule can keep the blocks of the inputs from being written: some thread can always go on, every
run comes to an end, and at its end everything has been delivered (`always_delivers`).
-/

namespace GarudaCodec.Core

open GarudaCodec.Foundation
open GarudaCodec.Foundation.Lanes
open GarudaCodec.Foundation.Chunks
open GarudaCodec.Foundation.Readers
open GarudaCodec.Foundation.Pipeline
open GarudaCodec.Core.Io

variable {rq : Raptorq} {workers : Nat} {positive : 0 < workers}

/-! ## The two pipelines -/

theorem BlockDispatcher.burns {blockSize : Nat} (sizePositive : 0 < blockSize) :
    (encoderProgram rq positive).Burns (fun dispatcher => dispatcher.blockSize = blockSize)
      (fun dispatcher => weight dispatcher.input) :=
  (BlockDispatcher.fueled sizePositive).item

theorem PacketDispatcher.burns {packetSize : Nat} (sizePositive : 0 < packetSize) :
    (decoderProgram rq positive).Burns (fun dispatcher => dispatcher.packetSize = packetSize)
      (fun dispatcher => weight dispatcher.input) := by
  intro dispatcher packet next size fetched
  have fetched : dispatcher.fetch rq = some (.item packet next) := fetched
  rw [PacketDispatcher.fetch] at fetched
  split at fetched
  next bytes input reads =>
    cases fetched
    exact ⟨size, weight_readExactWith (size ▸ sizePositive) reads⟩
  next => split at fetched <;> cases fetched

/-- A dispatcher with a quiet input ends only at its end. -/
theorem Encodes.stops_ok {encoder : BlockEncoder rq} {dispatcher : BlockDispatcher}
    {s : EncoderState rq workers} (encodes : Encodes positive encoder dispatcher s)
    (quiet : Quiet onError dispatcher.input) {exit : Exit} {next : BlockDispatcher}
    (idle : s.sourcePhase = .running [])
    (fetched : (encoderProgram rq positive).fetch s.source = some (.stop exit next)) :
    exit = .ok := by
  obtain ⟨chunks, sends⟩ := encodes.sends
  have unread := sends.unread quiet
  simp only [State.sourceView, idle, BlockDispatcher.Unread] at unread
  obtain ⟨kind, input, reads, rfl, -⟩ := BlockDispatcher.fetch_eq_stop fetched
  by_cases enough : s.source.blockSize ≤ (contents s.source.input).length
  · obtain ⟨rest, readsOn, -⟩ := unread.1.reads enough
    rw [readExact, readsOn] at reads
    cases reads
  · rw [readExact, unread.1.reads_eof (Nat.lt_of_not_le enough)] at reads
    cases reads
    rfl

theorem Encodes.works {encoder : BlockEncoder rq} {dispatcher : BlockDispatcher}
    {s : EncoderState rq workers} (encodes : Encodes positive encoder dispatcher s)
    (encodable : ∀ block : Block, block.data.length = dispatcher.blockSize →
      ∃ packets, encoder.encode block = .ok packets) :
    ∀ key, ∀ block ∈ s.queues key, ∃ worker out,
      (encoderProgram rq positive).work (s.workers key) block = .outputs worker out := by
  intro key block member
  obtain ⟨same, size⟩ := encodes.queued member
  obtain ⟨packets, encoded⟩ := encodable block.item size
  rw [same]
  exact ⟨encoder, packets.map fun packet => { origin := block.origin, item := packet },
    by simp [encoderProgram, BlockEncoder.encodeNext, encoded]⟩

theorem Decodes.stops_ok {decoder : BlockDecoder rq} {packetSize : Nat}
    {packets : List rq.EncodingPacket} {s : DecoderState rq workers} (sizePositive : 0 < packetSize)
    (whole : ∀ packet ∈ packets, Whole rq packetSize packet)
    (decodes : Decodes positive decoder packetSize packets s) {exit : Exit}
    {next : PacketDispatcher} (idle : s.sourcePhase = .running [])
    (fetched : (decoderProgram rq positive).fetch s.source = some (.stop exit next)) :
    exit = .ok := by
  have receives := decodes.receives
  simp only [State.sourceView, idle] at receives
  have fetched : s.source.fetch rq = some (.stop exit next) := fetched
  cases receives.fetch_cases sizePositive whole with
  | inl ends =>
    rw [ends.1] at fetched
    split at fetched
    next => cases fetched
    next =>
      cases fetched
      rfl
  | inr item =>
    obtain ⟨packet, input, fetches, -⟩ := item
    rw [fetches] at fetched
    cases fetched

/-- The decoder's threads do not close its stream. -/
theorem isOpen_of_step {s s' : DecoderState rq workers}
    (step : Step (decoderProgram rq positive) s s') : s'.source.isOpen = s.source.isOpen := by
  cases step with
  | @fetchItem packet next idle fetched =>
    have fetched : s.source.fetch rq = some (.item packet next) := fetched
    rw [PacketDispatcher.fetch] at fetched
    split at fetched
    next =>
      cases fetched
      rfl
    next => split at fetched <;> cases fetched
  | @fetchStop exit next idle fetched =>
    have fetched : s.source.fetch rq = some (.stop exit next) := fetched
    rw [PacketDispatcher.fetch] at fetched
    split at fetched
    next => cases fetched
    next =>
      split at fetched
      · cases fetched
      · cases fetched
        rfl
  | sourceSend | sourceSendFail | workerReceive | workerFail | workerPanic | workerSend
  | workerSendFail | workerFinish | sinkReceive | sinkWrite | sinkWriteFail | sinkFinish => rfl

/-! ## The link -/

namespace Link

variable {setup : Setup rq} {sessions : List Session} {s s' : Link rq setup.workers}

/-- A write that fails on either side. -/
inductive Fails (s s' : Link rq workers) : Prop
  | packet {encoder encoder'} : s.current = some encoder → s'.current = some encoder' →
      WriteFailure encoder encoder' → Fails s s'
  | block : WriteFailure s.decoder s'.decoder → Fails s s'

/-- A step in which no write fails, and that is not the closing of a closed stream. -/
structure Advances (setup : Setup rq) (s s' : Link rq setup.workers) : Prop where
  step : Step setup s s'
  writes : ¬Fails s s'
  changes : s' ≠ s

/-- What is asked of the codec and of the settings, for blocks to be encoded at all. -/
structure Capable (setup : Setup rq) : Prop where
  framed : rq.Framed
  counted : rq.Counted
  rejects : rq.RejectsEmpty
  few : setup.repairPacketsPerBlock.toNat ≤ 2 ^ 23

theorem Capable.blockSize_pos (capable : Capable setup) : 0 < setup.blockSize :=
  setup.accepted.blockSize_pos capable.rejects

theorem Capable.packetSize_pos (capable : Capable setup) : 0 < setup.packetSize :=
  setup.packetSize_pos capable.framed

theorem Capable.encodable (capable : Capable setup) (block : Block)
    (size : block.data.length = setup.blockSize) :
    ∃ packets, setup.encoder.encode block = .ok packets := by
  have few : setup.encoder.repairPacketsPerBlock.toNat ≤ 2 ^ 23 := by
    rw [(BlockEncoder.new_eq_ok.mp setup.encoder_created).2]
    exact capable.few
  exact setup.accepted.encode_ok capable.counted few block size

/-- The running encoder is that of some session. -/
theorem Connected.encodes_current (connected : Connected setup sessions s)
    {encoder : EncoderState rq setup.workers} (running : s.current = some encoder) :
    ∃ session ∈ sessions, ∃ position,
      Encodes setup.workers_pos setup.encoder (setup.dispatcher position session) encoder := by
  obtain ⟨served, split, chained⟩ := connected.encoders
  simp only [Link.encoders, running, Option.toList_some] at chained
  cases served.eq_nil_or_concat' with
  | inl none =>
    rw [none] at chained
    simpa using chained_length chained
  | inr last =>
    obtain ⟨earlier, session, rfl⟩ := last
    exact ⟨session, by simp [split], _, (chained_concat.mp chained).2⟩

/-- What holds as long as no write fails. -/
structure OnTrack (setup : Setup rq) (sessions : List Session) (s : Link rq setup.workers) :
    Prop where
  connected : Connected setup sessions s
  past : ∀ encoder ∈ s.past, Pipeline.Drained encoder
  encoderLive : ∀ encoder, s.current = some encoder →
    Live (fun dispatcher => dispatcher.blockSize = setup.blockSize) encoder
  encoderUnharmed : ∀ encoder, s.current = some encoder → Unharmed encoder
  decoderLive : Live (fun dispatcher => dispatcher.packetSize = setup.packetSize) s.decoder
  decoderUnharmed : Unharmed s.decoder

theorem OnTrack.start (setup : Setup rq) (sessions : List Session) :
    OnTrack setup sessions (start setup sessions) where
  connected := .start setup sessions
  past := nofun
  encoderLive := nofun
  encoderUnharmed := nofun
  decoderLive := by
    apply Live.start
    rfl
  decoderUnharmed := .start _ _

theorem OnTrack.encode (capable : Capable setup)
    (quiet : ∀ session ∈ sessions, Quiet onError session.input) (onTrack : OnTrack setup sessions s)
    {encoder encoder' : EncoderState rq setup.workers} (running : s.current = some encoder)
    (step : Pipeline.Step (encoderProgram rq setup.workers_pos) encoder encoder')
    (writes : ¬WriteFailure encoder encoder') :
    OnTrack setup sessions { s with current := some encoder' } := by
  obtain ⟨session, member, position, encodes⟩ := onTrack.connected.encodes_current running
  exact
    { onTrack with
      connected := onTrack.connected.step capable.framed (.encode running step)
      encoderLive := by
        intro other isNext
        cases isNext
        exact (onTrack.encoderLive encoder running).step_of_burns
          (BlockDispatcher.burns capable.blockSize_pos) step
      encoderUnharmed := by
        intro other isNext
        cases isNext
        exact (onTrack.encoderUnharmed encoder running).step encodes.wired
          (fun _ _ => encodes.stops_ok (quiet session member)) (encodes.works capable.encodable)
          step writes }

theorem OnTrack.decode (capable : Capable setup) (onTrack : OnTrack setup sessions s)
    {decoder' : DecoderState rq setup.workers}
    (step : Pipeline.Step (decoderProgram rq setup.workers_pos) s.decoder decoder')
    (writes : ¬WriteFailure s.decoder decoder') :
    OnTrack setup sessions { s with decoder := decoder' } :=
  have whole := onTrack.connected.whole_delivered capable.framed
  { onTrack with
    connected := onTrack.connected.step capable.framed (.decode step)
    decoderLive := onTrack.decoderLive.step_of_burns
      (PacketDispatcher.burns capable.packetSize_pos) step
    decoderUnharmed := onTrack.decoderUnharmed.step onTrack.connected.decoder.wired
      (fun _ _ => onTrack.connected.decoder.stops_ok capable.packetSize_pos whole)
      (fun _ _ _ => ⟨_, _, rfl⟩) step writes }

theorem OnTrack.step (capable : Capable setup)
    (quiet : ∀ session ∈ sessions, Quiet onError session.input) (onTrack : OnTrack setup sessions s)
    (step : Step setup s s') (writes : ¬Fails s s') : OnTrack setup sessions s' := by
  have connected := onTrack.connected.step capable.framed step
  cases step with
  | accept idle first =>
    refine { onTrack with connected := connected, encoderLive := ?_, encoderUnharmed := ?_ }
    · intro encoder running
      cases running
      apply Live.start
      rfl
    · intro encoder running
      cases running
      exact .start _ _
  | encode running encoderStep =>
    exact onTrack.encode capable quiet running encoderStep
      fun fails => writes (.packet running rfl fails)
  | finish running ended =>
    refine { onTrack with
      connected := connected, past := ?_, encoderLive := nofun, encoderUnharmed := nofun }
    intro other member
    cases List.mem_append.mp member with
    | inl earlier => exact onTrack.past other earlier
    | inr last =>
      cases List.mem_singleton.mp last
      exact (onTrack.encoderUnharmed _ running).drained ended
  | drop => exact { onTrack with connected := connected }
  | deliver | close =>
    exact
      { onTrack with
        connected := connected
        decoderLive := ⟨onTrack.decoderLive.source, onTrack.decoderLive.sink⟩
        decoderUnharmed := ⟨onTrack.decoderUnharmed.source, onTrack.decoderUnharmed.workers,
          onTrack.decoderUnharmed.sink⟩ }
  | decode decoderStep =>
    exact onTrack.decode capable decoderStep fun fails => writes (.block fails)

/-! ## Every run ends -/

abbrev Load : Type := ℕ ×ₗ ℕ ×ₗ ℕ ×ₗ ℕ

def encoderLoad (s : Link rq workers) : WithBot Load :=
  match s.current with
  | none => ⊥
  | some encoder => encoder.measure fun dispatcher => weight dispatcher.input

def channelLoad (s : Link rq workers) : Nat :=
  2 * (s.wire.length - s.carried) + s.decoder.source.isOpen.toNat

def decoderLoad (s : Link rq workers) : Load :=
  s.decoder.measure fun dispatcher => weight dispatcher.input

/-- The sessions not accepted, then the loads from the encoder to the decoder. -/
def measure (s : Link rq workers) : ℕ ×ₗ WithBot Load ×ₗ ℕ ×ₗ Load :=
  toLex (s.waiting.length, toLex (s.encoderLoad, toLex (s.channelLoad, s.decoderLoad)))

theorem measure_lt_of_encoder (waiting : s'.waiting = s.waiting)
    (less : s'.encoderLoad < s.encoderLoad) : s'.measure < s.measure :=
  Prod.Lex.toLex_lt_toLex.mpr (Or.inr ⟨congrArg List.length waiting,
    Prod.Lex.toLex_lt_toLex.mpr (Or.inl less)⟩)

theorem measure_lt_of_channel (waiting : s'.waiting = s.waiting) (current : s'.current = s.current)
    (less : s'.channelLoad < s.channelLoad) : s'.measure < s.measure := by
  have encoder : s'.encoderLoad = s.encoderLoad := by rw [encoderLoad, encoderLoad, current]
  exact Prod.Lex.toLex_lt_toLex.mpr (Or.inr ⟨congrArg List.length waiting,
    Prod.Lex.toLex_lt_toLex.mpr (Or.inr ⟨encoder, Prod.Lex.toLex_lt_toLex.mpr (Or.inl less)⟩)⟩)

/-- A stream that is closed twice stays as it is. -/
theorem close_closed (s : Link rq workers) (closed : s.decoder.source.isOpen = false) :
    { s with decoder := { s.decoder with source := { s.decoder.source with isOpen := false } } } =
      s := by
  rw [← closed]

theorem OnTrack.measure_lt (capable : Capable setup) (onTrack : OnTrack setup sessions s)
    (step : Step setup s s') (changes : s' ≠ s) : s'.measure < s.measure := by
  cases step with
  | accept idle first =>
    exact Prod.Lex.toLex_lt_toLex.mpr (Or.inl (by simp [first]))
  | @encode encoder encoder' running encoderStep =>
    refine measure_lt_of_encoder rfl ?_
    simp only [encoderLoad, running]
    exact WithBot.coe_lt_coe.mpr ((onTrack.encoderLive encoder running).measure_lt_of_burns
      (BlockDispatcher.burns capable.blockSize_pos) encoderStep)
  | finish running ended =>
    refine measure_lt_of_encoder rfl ?_
    simp only [encoderLoad, running]
    exact WithBot.bot_lt_coe _
  | drop next | deliver next =>
    have more := (List.getElem?_eq_some_iff.mp next).1
    refine measure_lt_of_channel rfl rfl ?_
    simp only [channelLoad, wire, encoders] at more ⊢
    omega
  | close served idle =>
    cases isOpen : s.decoder.source.isOpen with
    | false => exact absurd (close_closed s isOpen) changes
    | true =>
      refine measure_lt_of_channel rfl rfl ?_
      simp [channelLoad, isOpen, wire, encoders]
  | decode decoderStep =>
    have less := onTrack.decoderLive.measure_lt_of_burns
      (PacketDispatcher.burns capable.packetSize_pos) decoderStep
    have channel : ∀ next : Link rq setup.workers, next.past = s.past → next.current = s.current →
        next.carried = s.carried → next.decoder.source.isOpen = s.decoder.source.isOpen →
        next.channelLoad = s.channelLoad := by
      intro next past current carried isOpen
      simp [channelLoad, wire, encoders, past, current, carried, isOpen]
    exact Prod.Lex.toLex_lt_toLex.mpr (Or.inr ⟨rfl, Prod.Lex.toLex_lt_toLex.mpr (Or.inr ⟨rfl,
      Prod.Lex.toLex_lt_toLex.mpr (Or.inr
        ⟨channel _ rfl rfl rfl (isOpen_of_step decoderStep), less⟩)⟩)⟩)

/-! ## Every run can go on -/

/-- A packet is lost: dropped, or cut off by a stream that is closed too early. -/
inductive Loses (s s' : Link rq workers) : Prop
  | drops : s'.carried = s.carried + 1 → s'.delivered = s.delivered → Loses s s'
  | closesEarly : s.decoder.source.isOpen = true → s'.decoder.source.isOpen = false →
      s.carried < s.wire.length → Loses s s'

/-- Nothing has been lost, and nothing will be by the end of the stream. -/
structure Lossless (s : Link rq workers) : Prop where
  delivered : s.delivered = s.wire.take s.carried
  closed : s.decoder.source.isOpen = false →
    s.waiting = [] ∧ s.current = none ∧ s.carried = s.wire.length

/-- A step that goes on, and that loses nothing if nothing has been lost before. -/
def GoesOn (setup : Setup rq) (s : Link rq setup.workers) : Prop :=
  ∃ s', Advances setup s s' ∧ (Lossless s → ¬Loses s s')

theorem not_writeFailure_self {ι σ α ω β : Type*} (s : State ι σ α ω β) : ¬WriteFailure s s := by
  intro fails
  obtain ⟨output, busy, ended⟩ := fails
  rw [busy] at ended
  cases ended

theorem not_fails {s s' : Link rq workers}
    (packets : ∀ encoder encoder', s.current = some encoder → s'.current = some encoder' →
      ¬WriteFailure encoder encoder')
    (blocks : ¬WriteFailure s.decoder s'.decoder) : ¬Fails s s' := by
  intro fails
  cases fails with
  | packet running runs failure => exact packets _ _ running runs failure
  | block failure => exact blocks failure

theorem not_loses {s s' : Link rq workers}
    (carried : s'.carried = s.carried ∨ s'.delivered ≠ s.delivered)
    (isOpen : s'.decoder.source.isOpen = s.decoder.source.isOpen ∨ s.carried = s.wire.length) :
    ¬Loses s s' := by
  intro loses
  cases loses with
  | drops more same =>
    cases carried with
    | inl stays => omega
    | inr differs => exact differs same
  | closesEarly wasOpen isClosed less =>
    cases isOpen with
    | inl stays => simp [wasOpen, isClosed] at stays
    | inr all => omega

theorem OnTrack.encoder_goesOn (capable : Capable setup) (onTrack : OnTrack setup sessions s)
    {encoder : EncoderState rq setup.workers} (running : s.current = some encoder) :
    GoesOn setup s := by
  by_cases ended : AllEnded encoder
  · refine ⟨_, ⟨.finish running ended, ?_, ?_⟩, fun _ => not_loses (Or.inl rfl) (Or.inl rfl)⟩
    · exact not_fails nofun (not_writeFailure_self s.decoder)
    · intro same
      have stays := congrArg Link.current same
      simp [running] at stays
  · have live := onTrack.encoderLive encoder running
    obtain ⟨_, anyStep⟩ := live.progress (BlockDispatcher.fueled capable.blockSize_pos) ended
    obtain ⟨encoder', step, writes⟩ := anyStep.exists_without_write_failure
    refine ⟨_, ⟨.encode running step, ?_, ?_⟩, fun _ => not_loses (Or.inl rfl) (Or.inl rfl)⟩
    · refine not_fails ?_ (not_writeFailure_self s.decoder)
      intro left right isLeft isRight
      rw [running] at isLeft
      cases isLeft
      cases isRight
      exact writes
    · intro same
      have stays := congrArg Link.current same
      simp only [running, Option.some.injEq] at stays
      have less := live.measure_lt_of_burns (BlockDispatcher.burns capable.blockSize_pos) step
      rw [stays] at less
      exact lt_irrefl _ less

theorem accept_goesOn (idle : s.current = none) {session : Session} {waiting : List Session}
    (first : s.waiting = session :: waiting) : GoesOn setup s := by
  refine ⟨_, ⟨.accept idle first, ?_, ?_⟩, fun _ => not_loses (Or.inl rfl) (Or.inl rfl)⟩
  · refine not_fails ?_ (not_writeFailure_self s.decoder)
    intro encoder _ running
    simp [idle] at running
  · intro same
    have stays := congrArg Link.waiting same
    simp [first] at stays

/-- The channel can hand on a packet, or has to drop it if the stream has been closed. -/
theorem OnTrack.channel_goesOn (capable : Capable setup) (onTrack : OnTrack setup sessions s)
    (more : s.carried < s.wire.length) : GoesOn setup s := by
  have next : s.wire[s.carried]? = some s.wire[s.carried] := List.getElem?_eq_getElem more
  have samePackets : ∀ encoder encoder', s.current = some encoder → s.current = some encoder' →
      ¬WriteFailure encoder encoder' := by
    intro encoder encoder' running runs
    rw [running] at runs
    cases runs
    exact not_writeFailure_self encoder
  cases isOpen : s.decoder.source.isOpen with
  | false =>
    refine ⟨_, ⟨.drop next, not_fails samePackets (not_writeFailure_self s.decoder), ?_⟩, ?_⟩
    · intro same
      have stays := congrArg Link.carried same
      simp at stays
    · intro lossless
      have all := (lossless.closed isOpen).2.2
      omega
  | true =>
    obtain ⟨block, -, isEmitted⟩ := onTrack.connected.mem_wire capable.framed
      (List.getElem_mem more)
    have nonempty : rq.serialize s.wire[s.carried].item ≠ [] := by
      apply List.ne_nil_of_length_pos
      rw [(setup.whole capable.framed isEmitted).length]
      exact capable.packetSize_pos
    have fragments : Quiet onError [.data (rq.serialize s.wire[s.carried].item)] := by
      simpa [Quiet] using nonempty
    refine ⟨_, ⟨.deliver next isOpen fragments (by simp), not_fails samePackets ?_, ?_⟩,
      fun _ => not_loses (Or.inr (by simp)) (Or.inl rfl)⟩
    · exact not_writeFailure_self s.decoder
    · intro same
      have stays := congrArg Link.carried same
      simp at stays

theorem close_goesOn (served : s.waiting = []) (idle : s.current = none)
    (all : s.carried = s.wire.length) (isOpen : s.decoder.source.isOpen = true) :
    GoesOn setup s := by
  refine ⟨_, ⟨.close served idle, not_fails ?_ ?_, ?_⟩,
    fun _ => not_loses (Or.inl rfl) (Or.inr all)⟩
  · intro encoder _ running
    simp [idle] at running
  · exact not_writeFailure_self s.decoder
  · intro same
    have stays := congrArg (fun link => link.decoder.source.isOpen) same
    simp [isOpen] at stays

theorem OnTrack.decoder_goesOn (capable : Capable setup) (onTrack : OnTrack setup sessions s)
    (idle : s.current = none) (isOpen : s.decoder.source.isOpen = false)
    (unfinished : ¬AllEnded s.decoder) : GoesOn setup s := by
  have sizePositive := capable.packetSize_pos
  have live : Live (fun dispatcher => dispatcher.packetSize = setup.packetSize ∧
      dispatcher.isOpen = false) s.decoder := by
    refine ⟨fun held running => ?_, onTrack.decoderLive.sink⟩
    obtain ⟨size, short⟩ := onTrack.decoderLive.source held running
    exact ⟨⟨size, isOpen⟩, short⟩
  have fueled : Fueled (decoderProgram rq setup.workers_pos) _ _ :=
    PacketDispatcher.fueled sizePositive
  obtain ⟨_, anyStep⟩ := live.progress fueled unfinished
  obtain ⟨decoder', step, writes⟩ := anyStep.exists_without_write_failure
  refine ⟨_, ⟨.decode step, not_fails ?_ writes, ?_⟩,
    fun _ => not_loses (Or.inl rfl) (Or.inl (isOpen_of_step step))⟩
  · intro encoder _ running
    simp [idle] at running
  · intro same
    have stays := congrArg Link.decoder same
    have less := onTrack.decoderLive.measure_lt_of_burns (PacketDispatcher.burns sizePositive) step
    simp only at stays
    rw [stays] at less
    exact lt_irrefl _ less

/-- No deadlock: a link that cannot go on has done everything. -/
theorem OnTrack.progress (capable : Capable setup) (onTrack : OnTrack setup sessions s) :
    GoesOn setup s ∨ Drained s ∧ s.carried = s.wire.length := by
  cases running : s.current with
  | some encoder => exact Or.inl (onTrack.encoder_goesOn capable running)
  | none =>
    cases waiting : s.waiting with
    | cons session rest => exact Or.inl (accept_goesOn running waiting)
    | nil =>
      by_cases more : s.carried < s.wire.length
      · exact Or.inl (onTrack.channel_goesOn capable more)
      · have all := Nat.le_antisymm onTrack.connected.carried (Nat.le_of_not_lt more)
        cases isOpen : s.decoder.source.isOpen with
        | true => exact Or.inl (close_goesOn waiting running all isOpen)
        | false =>
          by_cases ended : AllEnded s.decoder
          · exact Or.inr ⟨⟨waiting, running, onTrack.past,
              onTrack.decoderUnharmed.drained ended⟩, all⟩
          · exact Or.inl (onTrack.decoder_goesOn capable running isOpen ended)

theorem OnTrack.run (capable : Capable setup)
    (quiet : ∀ session ∈ sessions, Quiet onError session.input)
    (run : Relation.ReflTransGen (Advances setup) (Link.start setup sessions) s) :
    OnTrack setup sessions s := by
  induction run with
  | refl => exact .start setup sessions
  | tail _ advances inductionHypothesis =>
    exact inductionHypothesis.step capable quiet advances.step advances.writes

theorem no_endless_advance (capable : Capable setup)
    (quiet : ∀ session ∈ sessions, Quiet onError session.input) :
    ¬∃ run : Nat → Link rq setup.workers, run 0 = start setup sessions ∧
      ∀ idx, Advances setup (run idx) (run (idx + 1)) :=
  no_endless_run
    (fun onTrack advances => onTrack.step capable quiet advances.step advances.writes) Link.measure
    (fun onTrack advances => onTrack.measure_lt capable advances.step advances.changes)
    (OnTrack.start setup sessions)

/-- Whatever the schedule is and whatever the channel loses: as long as no write fails, a link
    cannot run for ever, and it can go on until all its threads have returned without an error. -/
theorem always_ends (capable : Capable setup)
    (quiet : ∀ session ∈ sessions, Quiet onError session.input) :
    (∀ s, Relation.ReflTransGen (Advances setup) (start setup sessions) s →
      (∃ s', Advances setup s s') ∨ Drained s) ∧
    ¬∃ run : Nat → Link rq setup.workers, run 0 = start setup sessions ∧
      ∀ idx, Advances setup (run idx) (run (idx + 1)) := by
  refine ⟨fun s run => ?_, no_endless_advance capable quiet⟩
  cases (OnTrack.run capable quiet run).progress capable with
  | inl goesOn =>
    obtain ⟨s', advances, -⟩ := goesOn
    exact Or.inl ⟨s', advances⟩
  | inr drained => exact Or.inr drained.1

theorem capable_systematic {workers : Nat} (positive : 0 < workers) :
    Capable (systematicSetup positive) where
  framed := Systematic.framed
  counted := Systematic.counted
  rejects := Systematic.rejectsEmpty
  few := by
    show (0 : UInt32).toNat ≤ 2 ^ 23
    decide

/-- One thread after the other is started, so nothing is drained at first. -/
theorem always_ends_systematic :
    (∃ s', Advances (systematicSetup (show 0 < 3 by decide))
      (start _ [wholeSession 255 (List.replicate 32 1)]) s') ∧
    ¬∃ run : Nat → Link systematicCodec 3,
      run 0 = start (systematicSetup (show 0 < 3 by decide))
        [wholeSession 255 (List.replicate 32 1)] ∧
      ∀ idx, Advances (systematicSetup (show 0 < 3 by decide)) (run idx) (run (idx + 1)) := by
  have quiet : ∀ session ∈ [wholeSession 255 (List.replicate 32 1)],
      Quiet onError session.input := by
    simpa using quiet_wholeSession 255 (by simp)
  obtain ⟨progress, finite⟩ := always_ends (capable_systematic (show 0 < 3 by decide)) quiet
  refine ⟨?_, finite⟩
  cases progress _ .refl with
  | inl advances => exact advances
  | inr drained => exact absurd drained.waiting (by simp [start])

/-! ## Without losses everything is delivered -/

theorem Lossless.start (setup : Setup rq) (sessions : List Session) :
    Lossless (start setup sessions) where
  delivered := rfl
  closed := nofun

/-- What has been taken from a list is the same part of a longer one. -/
theorem take_of_front {α : Type*} {short long : List α} {count : Nat} (isPrefix : short <+: long)
    (enough : count ≤ short.length) : short.take count = long.take count := by
  obtain ⟨rest, rfl⟩ := isPrefix
  rw [List.take_append_of_le_length enough]

/-- The encoder side can do anything that takes nothing off the wire. -/
theorem Lossless.of_encoders (connected : Connected setup sessions s) (lossless : Lossless s)
    (busy : s.waiting ≠ [] ∨ s.current ≠ none) {waiting : List Session}
    {past : List (EncoderState rq setup.workers)}
    {current : Option (EncoderState rq setup.workers)}
    (grows : s.wire <+: (past ++ current.toList).flatMap fun encoder => encoder.written) :
    Lossless { s with waiting := waiting, past := past, current := current } where
  delivered := lossless.delivered.trans (take_of_front grows connected.carried)
  closed := by
    intro isClosed
    obtain ⟨served, idle, -⟩ := lossless.closed isClosed
    cases busy with
    | inl waits => exact absurd served waits
    | inr runs => exact absurd idle runs

theorem Lossless.step (connected : Connected setup sessions s) (lossless : Lossless s)
    (step : Step setup s s') (keeps : ¬Loses s s') : Lossless s' := by
  cases step with
  | accept idle first =>
    apply lossless.of_encoders connected (Or.inl (by simp [first]))
    simp [wire, Link.encoders, idle, State.start]
  | encode running encoderStep =>
    apply lossless.of_encoders connected (Or.inr (by simp [running]))
    simp only [wire, Link.encoders, running, Option.toList_some, List.flatMap_append,
      List.flatMap_cons, List.flatMap_nil, List.append_nil]
    exact (List.prefix_append_right_inj _).mpr encoderStep.written_prefix
  | finish running ended =>
    apply lossless.of_encoders connected (Or.inr (by simp [running]))
    simp [wire, Link.encoders, running]
  | drop next => exact absurd (.drops rfl rfl) keeps
  | @deliver packet fragments next isOpen quiet bytes =>
    have taken : s.wire.take (s.carried + 1) = s.wire.take s.carried ++ [packet] := by
      rw [List.take_add_one, next]
      rfl
    constructor
    · rw [lossless.delivered, ← taken]
      rfl
    · intro isClosed
      simp [isOpen] at isClosed
  | close served idle =>
    refine ⟨lossless.delivered, fun _ => ⟨served, idle, ?_⟩⟩
    cases isOpen : s.decoder.source.isOpen with
    | false => exact (lossless.closed isOpen).2.2
    | true =>
      by_contra notAll
      have more := Nat.lt_of_le_of_ne connected.carried notAll
      exact keeps (.closesEarly isOpen rfl more)
  | decode decoderStep =>
    refine ⟨lossless.delivered, fun isClosed => ?_⟩
    exact lossless.closed ((isOpen_of_step decoderStep).symm.trans isClosed)

/-- A step that goes on and loses nothing. -/
def Delivers (setup : Setup rq) (s s' : Link rq setup.workers) : Prop :=
  Advances setup s s' ∧ ¬Loses s s'

theorem Lossless.run (capable : Capable setup)
    (quiet : ∀ session ∈ sessions, Quiet onError session.input)
    (run : Relation.ReflTransGen (Delivers setup) (Link.start setup sessions) s) :
    OnTrack setup sessions s ∧ Lossless s := by
  induction run with
  | refl => exact ⟨.start setup sessions, .start setup sessions⟩
  | tail _ delivers inductionHypothesis =>
    obtain ⟨advances, keeps⟩ := delivers
    obtain ⟨onTrack, lossless⟩ := inductionHypothesis
    exact ⟨onTrack.step capable quiet advances.step advances.writes,
      lossless.step onTrack.connected advances.step keeps⟩

/-- Without losses and failing writes no schedule keeps the blocks from the output: no run goes on
    for ever, and one that cannot go on has written all blocks, each exactly once. -/
theorem always_delivers (capable : Capable setup) (complete : rq.Complete)
    (quiet : ∀ session ∈ sessions, Quiet onError session.input)
    (distinct : ∀ key, ((allBlockIds setup sessions).filter fun id => setup.queue id = key).IsChain
      fun left right => left ≠ right) :
    (∀ s, Relation.ReflTransGen (Delivers setup) (start setup sessions) s →
      (∃ s', Delivers setup s s') ∨
        Drained s ∧ s.decoder.written.Perm (sessions.flatMap setup.chunks)) ∧
    ¬∃ run : Nat → Link rq setup.workers, run 0 = start setup sessions ∧
      ∀ idx, Delivers setup (run idx) (run (idx + 1)) := by
  constructor
  · intro s run
    obtain ⟨onTrack, lossless⟩ := Lossless.run capable quiet run
    cases onTrack.progress capable with
    | inl goesOn =>
      obtain ⟨s', advances, keeps⟩ := goesOn
      exact Or.inl ⟨s', advances, keeps lossless⟩
    | inr ended =>
      obtain ⟨drained, all⟩ := ended
      have whole : s.delivered = s.wire := by rw [lossless.delivered, all, List.take_length]
      have reachable : Reachable setup (start setup sessions) s :=
        Relation.ReflTransGen.mono (fun _ _ delivers => delivers.1.step) _ _ run
      exact Or.inr ⟨drained, (lossless_iff_allBlockIds capable.framed capable.counted complete quiet
        reachable drained whole).mpr distinct⟩
  · intro endless
    obtain ⟨run, starts, delivers⟩ := endless
    exact no_endless_advance capable quiet ⟨run, starts, fun idx => (delivers idx).1⟩

/-- Two blocks, across the wrap of the number. -/
theorem always_delivers_systematic :
    (∃ s', Delivers (systematicSetup (show 0 < 3 by decide))
      (start _ [wholeSession 255 (List.replicate 32 1)]) s') ∧
    ¬∃ run : Nat → Link systematicCodec 3,
      run 0 = start (systematicSetup (show 0 < 3 by decide))
        [wholeSession 255 (List.replicate 32 1)] ∧
      ∀ idx, Delivers (systematicSetup (show 0 < 3 by decide)) (run idx) (run (idx + 1)) := by
  have quiet : ∀ session ∈ [wholeSession 255 (List.replicate 32 1)],
      Quiet onError session.input := by
    simpa using quiet_wholeSession 255 (by simp)
  obtain ⟨progress, finite⟩ := always_delivers (capable_systematic (show 0 < 3 by decide))
    Systematic.complete quiet (by decide)
  refine ⟨?_, finite⟩
  cases progress _ .refl with
  | inl delivers => exact delivers
  | inr drained => exact absurd drained.1.waiting (by simp [start])

end Link

end GarudaCodec.Core
