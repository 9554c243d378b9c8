import GarudaCodec.Core.Delivery

/-! # What the codec guarantees

End-to-end statements about runs of an encoder, a channel and a decoder: which of the input
blocks the decoder writes, when it writes all of them, and when it writes nothing else.  A block
number has 8 bits, and a decoder worker tells blocks apart by nothing but their numbers, so the
guarantees depend on the numbers that meet at one worker.
-/

namespace GarudaCodec.Core

open GarudaCodec.Foundation
open GarudaCodec.Foundation.Lanes
open GarudaCodec.Foundation.Runs
open GarudaCodec.Foundation.Groups
open GarudaCodec.Foundation.Chunks
open GarudaCodec.Foundation.Readers
open GarudaCodec.Core.Io

variable {rq : Raptorq}

namespace Link

variable {workers : Nat}
variable {setup : Setup rq} {sessions : List Session} {s : Link rq setup.workers}

/-! ## Delivery under losses -/

/-- With at most 128 workers, the numbers at every queue keep changing within a session. -/
theorem distinct_blocks (few : setup.workers ≤ 128) (session : Session) (key : Fin setup.workers) :
    ((setup.blocks 0 [session]).filter fun block => setup.queue block.item.id = key).IsChain
      fun left right => left.item.id ≠ right.item.id := by
  have chains := (isChain_blockIds setup.workers_pos session.initialBlockId
    (setup.chunks session).length).mpr (fun _ _ => exists_other _ few _) key
  rw [← map_id_numbered 0, List.filter_map, List.isChain_map] at chains
  rw [Setup.blocks, Setup.blocks, List.append_nil]
  exact chains

/-- If every block gets at least one packet through, exactly those blocks are written whose
    packets that got through are enough, each once, and in input order at every worker. -/
theorem delivers_what_survives (framed : rq.Framed) (sound : rq.Sound) (setup : Setup rq)
    (few : setup.workers ≤ 128) (session : Session) (quiet : Quiet onError session.input)
    {s : Link rq setup.workers} (reachable : Reachable setup (start setup [session]) s)
    (drained : Drained s)
    (survive : ∀ block ∈ setup.blocks 0 [session], s.survivors block.origin ≠ []) :
    ∃ order : List (Sourced Block),
      order.Perm ((setup.blocks 0 [session]).filter (s.decodable setup)) ∧
      s.decoder.written = order.map (fun block => block.item.data) ∧
      (∀ key, (order.filter fun block => setup.queue block.item.id = key) =
        ((setup.blocks 0 [session]).filter (s.decodable setup)).filter fun block =>
          setup.queue block.item.id = key) ∧
      (setup.workers = 1 → order = (setup.blocks 0 [session]).filter (s.decodable setup)) := by
  have connected := (Connected.start setup [session]).reachable framed reachable
  have served := connected.drained framed drained (by simpa using quiet)
  have sent : s.dispatched = setup.blocks 0 [session] := served.sent
  rw [← sent] at survive ⊢
  have alive := Connected.alive_of_survivors survive
  -- no block is lost altogether and neighbours at a queue have different numbers, so that every
  -- block is a run of its own
  have distinct : ∀ key, (s.blocksAt setup key).IsChain
      fun left right => left.item.id ≠ right.item.id := fun key => by
    rw [blocksAt, sent]
    exact distinct_blocks few session key
  have separated : s.Separated setup := Connected.separated_of_distinct fun key =>
    alive key ▸ distinct key
  obtain ⟨order, written, lanes⟩ := connected.exists_order_drained framed
    (connected.faithful framed sound) separated drained.decoder
  have sameLanes : ∀ key, (order.filter fun block => setup.queue block.item.id = key) =
      (s.dispatched.filter (s.decodable setup)).filter fun block =>
        setup.queue block.item.id = key := by
    intro key
    rw [lanes key, decodedAt, alive key, firsts_of_distinct (distinct key), blocksAt,
      List.filter_filter, List.filter_filter]
    exact List.filter_congr fun _ _ => Bool.and_comm _ _
  refine ⟨order, perm_of_lanes _ sameLanes, written, sameLanes, ?_⟩
  intro one
  -- a single worker has a single queue, and that holds everything
  have onlyKey : ∀ left right : Fin setup.workers, left = right := fun left right => by
    have := left.isLt
    have := right.isLt
    exact Fin.ext (by omega)
  have same := sameLanes ⟨0, setup.workers_pos⟩
  rwa [List.filter_eq_self.mpr fun block _ => decide_eq_true (onlyKey _ _),
    List.filter_eq_self.mpr fun block _ => decide_eq_true (onlyKey _ _)] at same

/-- The first of two blocks loses a packet, the second arrives complete. -/
theorem delivers_what_survives_systematic :
    ∃ s, Reachable (systematicSetup (show 0 < 3 by decide))
        (start _ [wholeSession 255 (List.replicate 16 1 ++ List.replicate 16 2)]) s ∧
      Drained s ∧ s.decoder.written = [List.replicate 16 2] := by
  have quiet : ∀ session ∈ [wholeSession 255 (List.replicate 16 1 ++ List.replicate 16 2)],
      Quiet onError session.input := by
    simpa using quiet_wholeSession 255 (by decide)
  obtain ⟨s, reachable, drained, kept⟩ := exists_drained_systematic (show 0 < 3 by decide) quiet
    fun packet => packet.origin = 1 ∨ packet.item.encodingSymbolId = 0
  have connected := (Connected.start _ _).reachable Systematic.framed reachable
  have served := connected.drained Systematic.framed drained quiet
  have blocks : (systematicSetup (show 0 < 3 by decide)).blocks 0
      [wholeSession 255 (List.replicate 16 1 ++ List.replicate 16 2)] =
        [⟨0, ⟨255, List.replicate 16 1⟩⟩, ⟨1, ⟨0, List.replicate 16 2⟩⟩] := by decide
  have sent : s.dispatched = _ := served.sent.trans blocks
  have first : s.survivors 0 = [⟨255, 0, List.replicate 8 1⟩] :=
    (connected.survivors_of_keep Systematic.framed served kept
      (sent ▸ List.mem_cons_self)).trans (by decide)
  have second : s.survivors 1 = [⟨0, 1, List.replicate 8 2⟩, ⟨0, 0, List.replicate 8 2⟩] :=
    (connected.survivors_of_keep Systematic.framed served kept
      (sent ▸ List.mem_cons_of_mem _ List.mem_cons_self)).trans (by decide)
  have survive : ∀ block ∈ (systematicSetup (show 0 < 3 by decide)).blocks 0
      [wholeSession 255 (List.replicate 16 1 ++ List.replicate 16 2)],
      s.survivors block.origin ≠ [] := by
    rw [blocks]
    simp [first, second]
  obtain ⟨order, isPerm, written, _⟩ := delivers_what_survives Systematic.framed Systematic.sound _
    (show 3 ≤ 128 by decide) _ (quiet _ List.mem_cons_self) reachable drained survive
  have decodable : ([⟨0, ⟨255, List.replicate 16 1⟩⟩, ⟨1, ⟨0, List.replicate 16 2⟩⟩] :
      List (Sourced Block)).filter (s.decodable (systematicSetup (show 0 < 3 by decide))) =
        [⟨1, ⟨0, List.replicate 16 2⟩⟩] := by
    simp only [List.filter_cons, List.filter_nil, Link.decodable, first, second]
    decide
  rw [blocks, decodable, List.perm_singleton] at isPerm
  exact ⟨s, reachable, drained, by rw [written, isPerm]; rfl⟩

/-! ## Nothing but input blocks -/

theorem map_data_numbered (position : Nat) (id : UInt8) (chunks : List (List UInt8)) :
    (numbered position id chunks).map (fun block => block.item.data) = chunks := by
  apply List.ext_getElem
  · simp
  · intro idx _ _
    simp [numbered]

/-- Everything written is a dispatched block, and no dispatched block is written twice. -/
def Uncorrupted (s : Link rq workers) : Prop :=
  ∃ order : List (Sourced Block), order.Subperm s.dispatched ∧
    s.decoder.written = order.map fun block => block.item.data

/-- One block of ones and 256 blocks of zeros. -/
def outageSession : Session :=
  wholeSession 0 (List.replicate 16 1 ++ List.replicate (256 * 16) 0)

theorem quiet_outageSession : ∀ session ∈ [outageSession], Quiet onError session.input := by
  intro session member
  cases List.mem_singleton.mp member
  exact quiet_wholeSession 0 (List.append_ne_nil_of_left_ne_nil (by decide) _)

theorem chunks_outageSession :
    (systematicSetup Nat.one_pos).chunks outageSession =
      List.replicate 16 1 :: List.replicate 256 (List.replicate 16 0) := by
  have sizes : ∀ piece ∈ List.replicate 16 (1 : UInt8) :: List.replicate 256 (List.replicate 16 0),
      piece.length = 16 := by
    intro piece member
    cases List.mem_cons.mp member with
    | inl isFirst => rw [isFirst, List.length_replicate]
    | inr isLater => rw [List.eq_of_mem_replicate isLater, List.length_replicate]
  have cut := chunksExact_flatten sizes (show ([] : List UInt8).length < 16 by decide)
  rw [List.append_nil, List.flatten_cons, List.flatten_replicate_replicate] at cut
  rw [outageSession, chunks_wholeSession]
  exact cut

theorem blocks_outageSession :
    ∃ middle, (systematicSetup Nat.one_pos).blocks 0 [outageSession] =
        ⟨0, ⟨0, List.replicate 16 1⟩⟩ :: middle ++ [⟨256, ⟨0, List.replicate 16 0⟩⟩] ∧
      ∀ block ∈ middle, block.origin ≠ 0 ∧ block.origin ≠ 256 := by
  have last := numbered_concat 0 0
    (List.replicate 16 1 :: List.replicate 255 (List.replicate 16 0)) (List.replicate 16 0)
  rw [List.cons_append, ← List.replicate_succ', numbered, numbered, List.mapIdx_cons,
    List.mapIdx_cons, List.length_cons, List.length_replicate] at last
  refine ⟨(List.replicate 255 (List.replicate 16 0)).mapIdx fun idx data =>
    { origin := 0 + (idx + 1), item := { id := 0 + UInt8.ofNat (idx + 1), data } }, ?_, ?_⟩
  · rw [Setup.blocks, Setup.blocks, List.append_nil, chunks_outageSession, numbered,
      List.mapIdx_cons]
    exact last
  · intro block member
    obtain ⟨idx, inside, rfl⟩ := List.mem_mapIdx.mp member
    rw [List.length_replicate] at inside
    constructor
    · show 0 + (idx + 1) ≠ 0
      omega
    · show 0 + (idx + 1) ≠ 256
      omega

/-- Of the 257 blocks the channel hands on packets of the first and of the last one only. -/
theorem survivors_outageSession
    {s : Link systematicCodec (systematicSetup Nat.one_pos).workers}
    (connected : Connected (systematicSetup Nat.one_pos) [outageSession] s)
    (served : Served (systematicSetup Nat.one_pos) 0 [outageSession] s.encoders)
    {keep : Sourced Systematic.Packet → Bool} (kept : s.delivered = s.wire.filter keep)
    (ends : ∀ packet, keep packet = true → packet.origin = 0 ∨ packet.origin = 256) :
    s.survivors 0 = ((emitted (systematicSetup Nat.one_pos).encoder
        ⟨0, ⟨0, List.replicate 16 1⟩⟩).filter keep).map Sourced.item ∧
      s.survivors 256 = ((emitted (systematicSetup Nat.one_pos).encoder
        ⟨256, ⟨0, List.replicate 16 0⟩⟩).filter keep).map Sourced.item ∧
      s.alive _ ⟨0, Nat.one_pos⟩ =
        ([⟨0, ⟨0, List.replicate 16 1⟩⟩, ⟨256, ⟨0, List.replicate 16 0⟩⟩] :
          List (Sourced Block)).filter fun block => !(s.survivors block.origin).isEmpty := by
  obtain ⟨middle, blocks, between⟩ := blocks_outageSession
  have sent : s.dispatched = _ := served.sent.trans blocks
  have survivors := fun block (member : block ∈ s.dispatched) =>
    connected.survivors_of_keep Systematic.framed served kept member
  have nothing : ∀ block ∈ middle, s.survivors block.origin = [] := by
    intro block member
    rw [survivors block (by simp [sent, member]), List.filter_eq_nil_iff.mpr, List.map_nil]
    intro packet isEmitted isKept
    have origin := (mem_emitted isEmitted).1
    have isEnd := ends packet isKept
    have isMiddle := between block member
    omega
  -- there is one queue only, so that all blocks are at it
  have onlyKey : ∀ left right : Fin (systematicSetup Nat.one_pos).workers, left = right :=
    fun left right => Subsingleton.elim (α := Fin 1) left right
  have lost : middle.filter (fun block => !(s.survivors block.origin).isEmpty) = [] := by
    rw [List.filter_eq_nil_iff]
    intro block member
    simp [nothing block member]
  refine ⟨survivors ⟨0, ⟨0, List.replicate 16 1⟩⟩ (by simp [sent]),
    survivors ⟨256, ⟨0, List.replicate 16 0⟩⟩ (by simp [sent]), ?_⟩
  rw [alive, blocksAt, List.filter_eq_self.mpr fun block _ => decide_eq_true (onlyKey _ _), sent,
    List.cons_append, ← List.singleton_append, List.filter_append, List.filter_append, lost,
    List.nil_append, ← List.filter_append, List.singleton_append]

/-- Whatever is lost, only input blocks are written, and each at most once, as long as no decoder
    worker goes on from an undecoded block to another one with the same number. -/
theorem uncorrupted_of_separated (framed : rq.Framed) (sound : rq.Sound) (setup : Setup rq)
    (sessions : List Session) {s : Link rq setup.workers}
    (reachable : Reachable setup (start setup sessions) s) (separated : s.Separated setup) :
    s.Uncorrupted := by
  have connected := (Connected.start setup sessions).reachable framed reachable
  obtain ⟨order, written, lanes⟩ := connected.exists_order_prefix framed
    (connected.faithful framed sound) separated
  refine ⟨order, ?_, written⟩
  exact subperm_of_lanes (fun block => setup.queue block.item.id) fun key =>
    (lanes key).sublist.trans (decodedAt_sublist setup s key)

/-- Of 257 blocks, the first one arrives complete and the last one, which has the same number,
    keeps its second packet. -/
def shortOutage (packet : Sourced Systematic.Packet) : Bool :=
  packet.origin = 0 ∨ (packet.origin = 256 ∧ packet.item.encodingSymbolId = 1)

/-- The number comes round again after an outage, but not at an undecoded block. -/
theorem uncorrupted_of_separated_systematic :
    ∃ s, Reachable (systematicSetup Nat.one_pos) (start _ [outageSession]) s ∧ Drained s ∧
      s.delivered = s.wire.filter shortOutage ∧
      s.alive _ ⟨0, Nat.one_pos⟩ =
        [⟨0, ⟨0, List.replicate 16 1⟩⟩, ⟨256, ⟨0, List.replicate 16 0⟩⟩] ∧
      s.Uncorrupted := by
  obtain ⟨s, reachable, drained, kept⟩ :=
    exists_drained_systematic Nat.one_pos quiet_outageSession shortOutage
  have connected := (Connected.start _ _).reachable Systematic.framed reachable
  have served := connected.drained Systematic.framed drained quiet_outageSession
  obtain ⟨first, last, alive⟩ := survivors_outageSession connected served kept
    (by simp only [shortOutage, decide_eq_true_eq]; omega)
  have first' : s.survivors 0 = [⟨0, 1, List.replicate 8 1⟩, ⟨0, 0, List.replicate 8 1⟩] :=
    first.trans (by decide)
  have last' : s.survivors 256 = [⟨0, 1, List.replicate 8 0⟩] := last.trans (by decide)
  have both : s.alive _ ⟨0, Nat.one_pos⟩ =
      [⟨0, ⟨0, List.replicate 16 1⟩⟩, ⟨256, ⟨0, List.replicate 16 0⟩⟩] := by
    rw [alive]
    simp [first', last']
  have decodable : s.decodable (systematicSetup Nat.one_pos)
      ⟨0, ⟨0, List.replicate 16 1⟩⟩ = true := by
    rw [Link.decodable, first']
    decide
  -- the two blocks are one run of the number 0, and the first of them is decodable
  have separated : s.Separated (systematicSetup Nat.one_pos) := by
    intro key run member block isFirst
    obtain rfl : key = ⟨0, Nat.one_pos⟩ := Subsingleton.elim (α := Fin 1) _ _
    rw [both] at member
    have oneRun : runs (fun block : Sourced Block => block.item.id)
        [⟨0, ⟨0, List.replicate 16 1⟩⟩, ⟨256, ⟨0, List.replicate 16 0⟩⟩] =
          [[⟨0, ⟨0, List.replicate 16 1⟩⟩, ⟨256, ⟨0, List.replicate 16 0⟩⟩]] := by decide
    rw [oneRun, List.mem_singleton] at member
    rw [member, List.head?_cons, Option.mem_some_iff] at isFirst
    exact Or.inr (isFirst ▸ decodable)
  exact ⟨s, reachable, drained, kept, both,
    uncorrupted_of_separated Systematic.framed Systematic.sound _ _ reachable separated⟩

/-- Of 257 blocks, the first one keeps its first packet and the last one, which has the same
    number, its second packet. -/
def outage (packet : Sourced Systematic.Packet) : Bool :=
  (packet.origin = 0 ∧ packet.item.encodingSymbolId = 0) ∨
    (packet.origin = 256 ∧ packet.item.encodingSymbolId = 1)

/-- After the outage the decoder puts together a block that was never sent. -/
theorem written_after_outage
    {s : Link systematicCodec (systematicSetup Nat.one_pos).workers}
    (connected : Connected (systematicSetup Nat.one_pos) [outageSession] s)
    (served : Served (systematicSetup Nat.one_pos) 0 [outageSession] s.encoders)
    (drained : Pipeline.Drained s.decoder) (kept : s.delivered = s.wire.filter outage) :
    s.decoder.written = [List.replicate 8 1 ++ List.replicate 8 0] := by
  obtain ⟨first, last, alive⟩ := survivors_outageSession connected served kept
    (by simp only [outage, decide_eq_true_eq]; omega)
  have first' : s.survivors 0 = [⟨0, 0, List.replicate 8 1⟩] := first.trans (by decide)
  have last' : s.survivors 256 = [⟨0, 1, List.replicate 8 0⟩] := last.trans (by decide)
  -- to the decoder the two packets look like one run of the number 0
  have arrivals : (s.arrivalsAt _ ⟨0, Nat.one_pos⟩).map Sourced.item =
      [⟨0, 0, List.replicate 8 1⟩, ⟨0, 1, List.replicate 8 0⟩] := by
    rw [connected.map_arrivalsAt Systematic.framed, alive]
    simp [first', last']
  have onlyKey : ∀ left right : Fin (systematicSetup Nat.one_pos).workers, left = right :=
    fun left right => Subsingleton.elim (α := Fin 1) left right
  obtain ⟨_, written, complete⟩ := connected.decoder.drained drained
  have lanes := complete ⟨0, Nat.one_pos⟩
  have whole : s.decoder.merged.filter (fun entry => entry.1 = ⟨0, Nat.one_pos⟩) =
      s.decoder.merged := List.filter_eq_self.mpr fun entry _ => decide_eq_true (onlyKey _ _)
  rw [lane, whole, ← written, Setup.decodeStream, List.filter_map] at lanes
  refine lanes.trans ((congrArg _ arrivals).trans ?_)
  decide

/-- An outage of a whole cycle of numbers makes the decoder write a block that was never sent. -/
theorem corrupts_after_outage :
    systematicCodec.Framed ∧ systematicCodec.Sound ∧ systematicCodec.Complete ∧
      ∃ (setup : Setup systematicCodec) (session : Session)
        (s : Link systematicCodec setup.workers),
        setup.workers ≤ 128 ∧ Quiet onError session.input ∧
          Reachable setup (start setup [session]) s ∧ ¬ s.Uncorrupted := by
  refine ⟨Systematic.framed, Systematic.sound, Systematic.complete,
    systematicSetup Nat.one_pos, outageSession, ?_⟩
  obtain ⟨s, reachable, drained, kept⟩ :=
    exists_drained_systematic Nat.one_pos quiet_outageSession outage
  refine ⟨s, by decide, quiet_outageSession _ List.mem_cons_self, reachable, ?_⟩
  have connected := (Connected.start _ _).reachable Systematic.framed reachable
  have served := connected.drained Systematic.framed drained quiet_outageSession
  intro ⟨order, subperm, written⟩
  rw [written_after_outage connected served drained.decoder kept] at written
  -- every block sent is all ones or all zeros, but the one written is neither
  have mixed : List.replicate 8 1 ++ List.replicate 8 0 ∈
      s.dispatched.map fun block => block.item.data := by
    refine List.map_subset _ subperm.subset ?_
    rw [← written]
    exact List.mem_cons_self
  rw [show s.dispatched = _ from served.sent, Setup.blocks, Setup.blocks, List.append_nil,
    map_data_numbered, chunks_outageSession] at mixed
  cases List.mem_cons.mp mixed with
  | inl isFirst => exact absurd isFirst (by decide)
  | inr isLater => exact absurd (List.eq_of_mem_replicate isLater) (by decide)

/-! ## Lossless delivery -/

/-- Without losses, every dispatched block is written exactly once if and only if no two blocks
    that follow each other at a queue have the same number. -/
theorem Connected.lossless_iff (framed : rq.Framed) (counted : rq.Counted)
    (complete : rq.Complete) (connected : Connected setup sessions s)
    (served : Served setup 0 sessions s.encoders) (drained : Pipeline.Drained s.decoder)
    (lossless : s.delivered = s.wire) :
    s.decoder.written.Perm (s.dispatched.map fun block => block.item.data) ↔
      ∀ key, (s.blocksAt setup key).IsChain fun left right => left.item.id ≠ right.item.id := by
  have positive : ∀ block ∈ s.dispatched, 0 < setup.blockSize := by
    intro block member
    refine served.blockSize_pos ?_
    rintro rfl
    rw [show s.dispatched = [] from served.sent] at member
    cases member
  have decoded : ∀ block ∈ s.dispatched,
      rq.firstDecoded (rq.newDecoder block.item.id setup.encoder.config setup.blockSize)
        (s.survivors block.origin) = some block.item.data := fun block member =>
    connected.decoded_of_lossless framed counted complete served (positive block member) lossless
      member
  have decodable : ∀ block ∈ s.dispatched, s.decodable setup block = true := fun block member => by
    rw [Link.decodable, decoded block member]
    rfl
  have survive : ∀ block ∈ s.dispatched, s.survivors block.origin ≠ [] := by
    intro block member empty
    have nothing := decoded block member
    rw [empty] at nothing
    cases nothing
  have alive := alive_of_survivors survive
  obtain ⟨order, written, lanes⟩ := connected.exists_order_drained framed
    (fun block member _ => decoded block member) (separated_of_decodable decodable) drained
  have goodAt : ∀ key, ∀ block ∈ s.blocksAt setup key, s.decodable setup block = true :=
    fun key block member => decodable block (List.mem_filter.mp member).1
  constructor
  · intro isPerm key
    -- all blocks written at a queue are as many as its runs, so each run is a single block
    have subperm : order.Subperm s.dispatched :=
      subperm_of_lanes (fun block => setup.queue block.item.id) fun key => by
        rw [lanes key]
        exact decodedAt_sublist setup s key
    have lengths : order.length = s.dispatched.length := by
      simpa [written] using isPerm.length_eq
    have everything := (subperm.perm_of_length_le lengths.ge).filter
      (fun block => decide (setup.queue block.item.id = key))
    have count := everything.length_eq
    rw [lanes key, decodedAt, alive key, length_firsts (goodAt key)] at count
    exact distinct_of_length_runs count
  · intro distinct
    rw [written]
    refine List.Perm.map _ (perm_of_lanes (fun block => setup.queue block.item.id) fun key => ?_)
    rw [lanes key, decodedAt, alive key, firsts_of_distinct (distinct key),
      List.filter_eq_self.mpr (goodAt key)]
    rfl

/-- The numbers of all blocks of all sessions, in stream order. -/
def allBlockIds (setup : Setup rq) (sessions : List Session) : List UInt8 :=
  sessions.flatMap fun session => blockIds session.initialBlockId (setup.chunks session).length

theorem map_id_blocks (setup : Setup rq) (position : Nat) (sessions : List Session) :
    (setup.blocks position sessions).map (fun block => block.item.id) =
      allBlockIds setup sessions := by
  induction sessions generalizing position with
  | nil => rfl
  | cons session sessions inductionHypothesis =>
    rw [Setup.blocks, List.map_append, inductionHypothesis, map_id_numbered, allBlockIds,
      allBlockIds, List.flatMap_cons]

theorem map_data_blocks (setup : Setup rq) (position : Nat) (sessions : List Session) :
    (setup.blocks position sessions).map (fun block => block.item.data) =
      sessions.flatMap setup.chunks := by
  induction sessions generalizing position with
  | nil => rfl
  | cons session sessions inductionHypothesis =>
    rw [Setup.blocks, List.map_append, inductionHypothesis, map_data_numbered, List.flatMap_cons]

/-- `lossless_iff` in terms of the inputs. -/
theorem lossless_iff_allBlockIds (framed : rq.Framed) (counted : rq.Counted)
    (complete : rq.Complete) (quiet : ∀ session ∈ sessions, Quiet onError session.input)
    (reachable : Reachable setup (start setup sessions) s) (drained : Drained s)
    (lossless : s.delivered = s.wire) :
    s.decoder.written.Perm (sessions.flatMap setup.chunks) ↔
      ∀ key, ((allBlockIds setup sessions).filter fun id => setup.queue id = key).IsChain
        fun left right => left ≠ right := by
  have connected := (Connected.start setup sessions).reachable framed reachable
  have served := connected.drained framed drained quiet
  have sent : s.dispatched = setup.blocks 0 sessions := served.sent
  have delivered := connected.lossless_iff framed counted complete served drained.decoder lossless
  rw [sent, map_data_blocks] at delivered
  rw [delivered, ← map_id_blocks setup 0 sessions, ← sent]
  refine forall_congr' fun key => ?_
  rw [List.filter_map, List.isChain_map]
  rfl

/-- Over a lossless channel, every complete block of the input is written exactly once if and only
    if each number that comes up again shares its queue with another number. -/
theorem lossless_delivery_iff (framed : rq.Framed) (counted : rq.Counted) (complete : rq.Complete)
    (setup : Setup rq) (session : Session) (quiet : Quiet onError session.input)
    {s : Link rq setup.workers} (reachable : Reachable setup (start setup [session]) s)
    (drained : Drained s) (lossless : s.delivered = s.wire) :
    s.decoder.written.Perm (setup.chunks session) ↔
      ∀ position, position + 256 < (setup.chunks session).length →
        ∃ other, other ≠ blockId session.initialBlockId position ∧
          setup.queue other = setup.queue (blockId session.initialBlockId position) := by
  have delivered := lossless_iff_allBlockIds framed counted complete (by simpa using quiet)
    reachable drained lossless
  rw [List.flatMap_singleton, allBlockIds, List.flatMap_singleton] at delivered
  exact delivered.trans (isChain_blockIds setup.workers_pos _ _)

/-- Two blocks, across the wrap of the number, for three workers. -/
theorem lossless_delivery_iff_systematic :
    ∃ s, Reachable (systematicSetup (show 0 < 3 by decide))
        (start _ [wholeSession 255 (List.replicate 32 1)]) s ∧ Drained s ∧
      s.decoder.written.Perm [List.replicate 16 1, List.replicate 16 1] := by
  have quiet : ∀ session ∈ [wholeSession 255 (List.replicate 32 1)],
      Quiet onError session.input := by
    simpa using quiet_wholeSession 255 (by decide)
  obtain ⟨s, reachable, drained, kept⟩ :=
    exists_drained_systematic (show 0 < 3 by decide) quiet fun _ => true
  have chunks : (systematicSetup (show 0 < 3 by decide)).chunks
      (wholeSession 255 (List.replicate 32 1)) = [List.replicate 16 1, List.replicate 16 1] := by
    decide
  have delivered := (lossless_delivery_iff Systematic.framed Systematic.counted
    Systematic.complete _ _ (quiet _ List.mem_cons_self) reachable drained
    (by simpa using kept)).mpr fun position again => by
      rw [chunks] at again
      exact absurd again (by simp)
  exact ⟨s, reachable, drained, chunks ▸ delivered⟩

/-- With 129 workers the number 127 is alone at its queue, so of 257 blocks that start with it the
    last one is lost. -/
theorem lossless_delivery_fails :
    systematicCodec.Framed ∧ systematicCodec.Counted ∧ systematicCodec.Complete ∧
      ∃ (setup : Setup systematicCodec) (session : Session)
        (s : Link systematicCodec setup.workers),
        Quiet onError session.input ∧ Reachable setup (start setup [session]) s ∧ Drained s ∧
          s.delivered = s.wire ∧ ¬ s.decoder.written.Perm (setup.chunks session) := by
  refine ⟨Systematic.framed, Systematic.counted, Systematic.complete,
    systematicSetup (show 0 < 129 by decide), wholeSession 127 (List.replicate (257 * 16) 0), ?_⟩
  have quiet : ∀ session ∈ [wholeSession 127 (List.replicate (257 * 16) 0)],
      Quiet onError session.input := by
    intro session member
    cases List.mem_singleton.mp member
    exact quiet_wholeSession 127 (List.ne_nil_of_length_pos
      (by rw [List.length_replicate]; decide))
  obtain ⟨s, reachable, drained, kept⟩ :=
    exists_drained_systematic (show 0 < 129 by decide) quiet fun _ => true
  have lossless : s.delivered = s.wire := by simpa using kept
  refine ⟨s, quiet _ List.mem_cons_self, reachable, drained, lossless, fun isPerm => ?_⟩
  have delivered := lossless_iff_allBlockIds Systematic.framed Systematic.counted
    Systematic.complete quiet reachable drained lossless
  rw [List.flatMap_singleton, allBlockIds, List.flatMap_singleton] at delivered
  obtain ⟨other, different, sameQueue⟩ :=
    (isChain_blockIds _ _ _).mp (delivered.mp isPerm) 0 (by
      rw [chunks_wholeSession, length_chunksExact, List.length_replicate]
      decide)
  have remainder : other.toNat % 129 = 127 := congrArg Fin.val sameQueue
  -- 127 + 129 is no number of 8 bits, so no other number shares the queue
  have small : other.toNat < 256 := other.toNat_lt
  refine different (UInt8.toNat_inj.mp ?_)
  show other.toNat = 127
  omega

/-! ## Sessions one after another -/

/-- The numbers of the blocks at one queue, session by session, without the sessions that have no
    block there. -/
def numbersAt (setup : Setup rq) (sessions : List Session) (key : Fin setup.workers) :
    List (List UInt8) :=
  (sessions.map fun session =>
    (blockIds session.initialBlockId (setup.chunks session).length).filter fun id =>
      setup.queue id = key).filter fun numbers => !numbers.isEmpty

theorem flatten_numbersAt (setup : Setup rq) (sessions : List Session) (key : Fin setup.workers) :
    (numbersAt setup sessions key).flatten =
      (allBlockIds setup sessions).filter fun id => setup.queue id = key := by
  rw [numbersAt, List.flatten_filter_not_isEmpty, allBlockIds, List.filter_flatMap,
    List.flatMap_def]

/-- Over a lossless channel and with at most 128 workers, every complete block of every session is
    written exactly once if and only if no session starts, at any queue, with the number that the
    last session with a block there ended with. -/
theorem sessions_delivery_iff (framed : rq.Framed) (counted : rq.Counted) (complete : rq.Complete)
    (setup : Setup rq) (few : setup.workers ≤ 128) (sessions : List Session)
    (quiet : ∀ session ∈ sessions, Quiet onError session.input)
    {s : Link rq setup.workers} (reachable : Reachable setup (start setup sessions) s)
    (drained : Drained s) (lossless : s.delivered = s.wire) :
    s.decoder.written.Perm (sessions.flatMap setup.chunks) ↔
      ∀ key, (numbersAt setup sessions key).IsChain fun earlier later =>
        ∀ last ∈ earlier.getLast?, ∀ first ∈ later.head?, last ≠ first := by
  rw [lossless_iff_allBlockIds framed counted complete quiet reachable drained lossless]
  refine forall_congr' fun key => ?_
  have nonempty : [] ∉ numbersAt setup sessions key := fun member => by
    simpa using (List.mem_filter.mp member).2
  rw [← flatten_numbersAt, List.isChain_flatten nonempty]
  -- within a session the numbers at a queue keep changing
  refine and_iff_right fun numbers member => ?_
  obtain ⟨session, _, rfl⟩ := List.mem_map.mp (List.mem_filter.mp member).1
  exact (isChain_blockIds setup.workers_pos _ _).mpr (fun _ _ => exists_other _ few _) key

/-- The second session goes on with the next number. -/
theorem sessions_delivery_iff_systematic :
    ∃ s, Reachable (systematicSetup Nat.one_pos)
        (start _ [wholeSession 7 (List.replicate 16 1), wholeSession 8 (List.replicate 16 2)]) s ∧
      Drained s ∧ s.decoder.written.Perm [List.replicate 16 1, List.replicate 16 2] := by
  have quiet : ∀ session ∈
      [wholeSession 7 (List.replicate 16 1), wholeSession 8 (List.replicate 16 2)],
      Quiet onError session.input := by
    simpa using ⟨quiet_wholeSession 7 (by decide), quiet_wholeSession 8 (by decide)⟩
  obtain ⟨s, reachable, drained, kept⟩ :=
    exists_drained_systematic Nat.one_pos quiet fun _ => true
  have chunks : [wholeSession 7 (List.replicate 16 1), wholeSession 8 (List.replicate 16 2)].flatMap
      (systematicSetup Nat.one_pos).chunks = [List.replicate 16 1, List.replicate 16 2] := by
    decide
  have delivered := sessions_delivery_iff Systematic.framed Systematic.counted
    Systematic.complete _ (show 1 ≤ 128 by decide) _ quiet reachable drained
    (by simpa using kept)
  rw [chunks] at delivered
  refine ⟨s, reachable, drained, delivered.mpr fun key => ?_⟩
  obtain rfl : key = ⟨0, Nat.one_pos⟩ := Subsingleton.elim (α := Fin 1) _ _
  have numbers : numbersAt (systematicSetup Nat.one_pos) [wholeSession 7 (List.replicate 16 1),
      wholeSession 8 (List.replicate 16 2)] ⟨0, Nat.one_pos⟩ = [[7], [8]] := by decide
  rw [numbers]
  simp

/-- A session that happens to start with the last number of the one before it loses its block. -/
theorem sessions_delivery_fails :
    systematicCodec.Framed ∧ systematicCodec.Counted ∧ systematicCodec.Complete ∧
      ∃ (setup : Setup systematicCodec) (sessions : List Session)
        (s : Link systematicCodec setup.workers), setup.workers ≤ 128 ∧
          (∀ session ∈ sessions, Quiet onError session.input) ∧
          Reachable setup (start setup sessions) s ∧ Drained s ∧ s.delivered = s.wire ∧
            ¬ s.decoder.written.Perm (sessions.flatMap setup.chunks) := by
  refine ⟨Systematic.framed, Systematic.counted, Systematic.complete,
    systematicSetup Nat.one_pos,
    [wholeSession 7 (List.replicate 16 1), wholeSession 7 (List.replicate 16 2)], ?_⟩
  have quiet : ∀ session ∈
      [wholeSession 7 (List.replicate 16 1), wholeSession 7 (List.replicate 16 2)],
      Quiet onError session.input := by
    simpa using ⟨quiet_wholeSession 7 (by decide), quiet_wholeSession 7 (by decide)⟩
  obtain ⟨s, reachable, drained, kept⟩ :=
    exists_drained_systematic Nat.one_pos quiet fun _ => true
  have lossless : s.delivered = s.wire := by simpa using kept
  refine ⟨s, by decide, quiet, reachable, drained, lossless, fun isPerm => ?_⟩
  have distinct := (lossless_iff_allBlockIds Systematic.framed Systematic.counted
    Systematic.complete quiet reachable drained lossless).mp isPerm ⟨0, Nat.one_pos⟩
  -- at the one queue the numbers are 7 and 7
  revert distinct
  decide

end Link

end GarudaCodec.Core
