import GarudaCodec.Foundation.PipelineSources
import GarudaCodec.Core.Dispatch
import GarudaCodec.Core.Guarantees

/-! # Sessions of at most 256 blocks

Within 256 blocks no number comes up twice, so nothing can mix at a decoder worker, whatever the
channel loses and whatever the number of workers is.  At any time such a session is nothing but a
channel for whole blocks that may lose and reorder them (`refines_lossy_channel`).
-/

namespace GarudaCodec.Core

open GarudaCodec.Foundation
open GarudaCodec.Foundation.Lanes
open GarudaCodec.Foundation.Chunks
open GarudaCodec.Foundation.Readers
open GarudaCodec.Core.Io

variable {rq : Raptorq}

/-- At any time a dispatcher has sent the first blocks of its input. -/
theorem sent_prefix_numbered {workers : Nat} (positive : 0 < workers) {encoder : BlockEncoder rq}
    {dispatcher : BlockDispatcher} (sizePositive : 0 < dispatcher.blockSize)
    (quiet : Quiet onError dispatcher.input) {e : EncoderState rq workers}
    (reachable : Pipeline.Reachable (encoderProgram rq positive)
      (.start dispatcher fun _ => encoder) e) :
    e.sent <+: numbered dispatcher.position dispatcher.currentBlockId
      (chunksExact dispatcher.blockSize (contents dispatcher.input)) := by
  have whole : dispatcher.input = dispatcher.input ++ [] := (List.append_nil _).symm
  have dispatches :=
    (dispatches_iff rq positive quiet .endOfFile sizePositive whole _ _).mpr ⟨rfl, rfl⟩
  exact Pipeline.sent_prefix_of_dispatches dispatches reachable

/-- Fewer than 257 consecutive numbers are all different. -/
theorem nodup_blockIds (initial : UInt8) {count : Nat} (few : count ≤ 256) :
    (blockIds initial count).Nodup := by
  rw [blockIds]
  apply List.Nodup.map_on _ List.nodup_range
  intro left inLeft right inRight same
  rw [List.mem_range] at inLeft inRight
  rw [blockId_eq_iff] at same
  omega

namespace Link

variable {setup : Setup rq} {session : Session} {s : Link rq setup.workers}

/-- The session has not been accepted yet, or its encoder is one that its dispatcher leads to. -/
def OneEncoder (setup : Setup rq) (session : Session) (s : Link rq setup.workers) : Prop :=
  (s.waiting = [session] ∧ s.encoders = [] ∧ s.current = none) ∨
    s.waiting = [] ∧ ∃ e, s.encoders = [e] ∧
      Pipeline.Reachable (encoderProgram rq setup.workers_pos)
        (.start (setup.dispatcher 0 session) fun _ => setup.encoder) e

theorem OneEncoder.step {s' : Link rq setup.workers} (one : OneEncoder setup session s)
    (step : Step setup s s') : OneEncoder setup session s' := by
  cases one with
  | inl before =>
    obtain ⟨waits, noEncoder, idle⟩ := before
    cases step with
    | @accept first waiting notRunning next =>
      rw [waits] at next
      cases next
      have past : s.past = [] := by simpa [Link.encoders, idle] using noEncoder
      have position : s.dispatched.length = 0 := by simp [dispatched, noEncoder]
      refine Or.inr ⟨rfl, .start (setup.dispatcher s.dispatched.length session)
        fun _ => setup.encoder, by simp [Link.encoders, past], ?_⟩
      rw [position]
    | encode running => simp [idle] at running
    | finish running => simp [idle] at running
    | drop | deliver | close | decode => exact Or.inl ⟨waits, noEncoder, idle⟩
  | inr after =>
    obtain ⟨served, e, isOnly, reachable⟩ := after
    cases step with
    | accept notRunning next => simp [served] at next
    | @encode encoder encoder' running encoderStep =>
      have same : s.past = [] ∧ encoder = e := by
        simp only [Link.encoders, running, Option.toList_some] at isOnly
        cases past : s.past with
        | nil => simpa [past] using isOnly
        | cons first past => simp [past] at isOnly
      obtain ⟨past, rfl⟩ := same
      exact Or.inr ⟨served, encoder', by simp [Link.encoders, past], reachable.tail encoderStep⟩
    | @finish encoder running ended =>
      refine Or.inr ⟨served, e, ?_, reachable⟩
      simpa [Link.encoders, running] using isOnly
    | drop | deliver | close | decode => exact Or.inr ⟨served, e, isOnly, reachable⟩

theorem oneEncoder (reachable : Reachable setup (start setup [session]) s) :
    OneEncoder setup session s := by
  induction reachable with
  | refl => exact Or.inl ⟨rfl, rfl, rfl⟩
  | tail _ step inductionHypothesis => exact inductionHypothesis.step step

/-- At any time the first blocks of the session have been dispatched. -/
theorem dispatched_blocks (sizePositive : 0 < setup.blockSize)
    (quiet : Quiet onError session.input)
    (reachable : Reachable setup (start setup [session]) s) :
    s.dispatched <+: numbered 0 session.initialBlockId (setup.chunks session) := by
  cases oneEncoder reachable with
  | inl before => simp [dispatched, before.2.1]
  | inr after =>
    obtain ⟨-, e, isOnly, reaches⟩ := after
    have sent : e.sent <+: numbered 0 session.initialBlockId (setup.chunks session) :=
      sent_prefix_numbered setup.workers_pos sizePositive quiet reaches
    simpa [dispatched, isOnly] using sent

/-- In a short session all dispatched blocks have different numbers. -/
theorem nodup_dispatched (sizePositive : 0 < setup.blockSize) (quiet : Quiet onError session.input)
    (short : (setup.chunks session).length ≤ 256)
    (reachable : Reachable setup (start setup [session]) s) :
    (s.dispatched.map fun block => block.item.id).Nodup := by
  have ids := (dispatched_blocks sizePositive quiet reachable).map fun block => block.item.id
  rw [map_id_numbered] at ids
  exact ids.sublist.nodup (nodup_blockIds _ short)

theorem distinct_of_short (sizePositive : 0 < setup.blockSize)
    (quiet : Quiet onError session.input) (short : (setup.chunks session).length ≤ 256)
    (reachable : Reachable setup (start setup [session]) s) (key : Fin setup.workers) :
    (s.alive setup key).IsChain fun left right => left.item.id ≠ right.item.id := by
  have nodup := nodup_dispatched sizePositive quiet short reachable
  rw [List.Nodup, List.pairwise_map] at nodup
  exact (nodup.sublist (List.filter_sublist.trans List.filter_sublist)).isChain

/-- In a short session nothing mixes at any queue. -/
theorem separated_of_short (sizePositive : 0 < setup.blockSize)
    (quiet : Quiet onError session.input) (short : (setup.chunks session).length ≤ 256)
    (reachable : Reachable setup (start setup [session]) s) : s.Separated setup :=
  Connected.separated_of_distinct (distinct_of_short sizePositive quiet short reachable)

/-- At any time the blocks written are some of those dispatched. -/
theorem written_subperm_of_short (framed : rq.Framed) (sound : rq.Sound)
    (sizePositive : 0 < setup.blockSize) (quiet : Quiet onError session.input)
    (short : (setup.chunks session).length ≤ 256)
    (reachable : Reachable setup (start setup [session]) s) :
    s.decoder.written.Subperm (s.dispatched.map fun block => block.item.data) := by
  have connected := (Connected.start setup [session]).reachable framed reachable
  obtain ⟨order, written, lanes⟩ := connected.exists_order_prefix framed
    (connected.faithful framed sound) (separated_of_short sizePositive quiet short reachable)
  have subperm : order.Subperm s.dispatched :=
    subperm_of_lanes (fun block => setup.queue block.item.id) fun key =>
      (lanes key).sublist.trans (decodedAt_sublist setup s key)
  obtain ⟨sub, isPerm, sublist⟩ := subperm
  rw [written]
  exact ⟨sub.map fun block => block.item.data, isPerm.map _, sublist.map _⟩

/-- In the end those blocks are written that can be decoded from what has come through, each once,
    also where all packets of a block are lost. -/
theorem written_of_short (framed : rq.Framed) (sound : rq.Sound)
    (sizePositive : 0 < setup.blockSize) (quiet : Quiet onError session.input)
    (short : (setup.chunks session).length ≤ 256)
    (reachable : Reachable setup (start setup [session]) s) (drained : Drained s) :
    ∃ order : List (Sourced Block), order.Perm (s.dispatched.filter (s.decodable setup)) ∧
      s.decoder.written = order.map fun block => block.item.data := by
  have connected := (Connected.start setup [session]).reachable framed reachable
  obtain ⟨order, written, lanes⟩ := connected.exists_order_drained framed
    (connected.faithful framed sound) (separated_of_short sizePositive quiet short reachable)
    drained.decoder
  have survives : ∀ block, s.decodable setup block = true → s.survivors block.origin ≠ [] := by
    intro block isDecodable empty
    simp [decodable, empty, Raptorq.firstDecoded] at isDecodable
  refine ⟨order, perm_of_lanes (fun block => setup.queue block.item.id) fun key => ?_, written⟩
  rw [lanes key, decodedAt,
    Runs.firsts_of_distinct (distinct_of_short sizePositive quiet short reachable key), alive,
    blocksAt, List.filter_filter, List.filter_filter, List.filter_filter]
  apply List.filter_congr
  intro block _
  cases isDecodable : s.decodable setup block with
  | false => simp
  | true => simp [survives block isDecodable]

end Link

/-! ## A channel for whole blocks -/

/-- What a link is for: blocks are sent, and of the blocks sent some are received. -/
structure LossyChannel (β : Type*) where
  sent : List β
  received : List β

namespace LossyChannel

variable {β : Type*}

/-- A block is sent, or one that has been sent and not yet received is received. -/
inductive Step : LossyChannel β → LossyChannel β → Prop
  | send {channel value} : Step channel { channel with sent := channel.sent ++ [value] }
  | receive {channel value} : (channel.received ++ [value]).Subperm channel.sent →
      Step channel { channel with received := channel.received ++ [value] }

end LossyChannel

namespace Link

variable {setup : Setup rq} {session : Session} {s s' : Link rq setup.workers}

/-- A link as a channel: the contents of the blocks dispatched and written. -/
def channel {workers : Nat} (s : Link rq workers) : LossyChannel (List UInt8) where
  sent := s.dispatched.map fun block => block.item.data
  received := s.decoder.written

/-- A step of a link sends a block, receives one, or cannot be seen. -/
theorem Step.channel (step : Step setup s s')
    (subperm : s'.channel.received.Subperm s'.channel.sent) :
    s'.channel = s.channel ∨ LossyChannel.Step s.channel s'.channel := by
  cases step with
  | accept idle waits =>
    refine Or.inl ?_
    simp [Link.channel, dispatched, Link.encoders, idle, Pipeline.State.start]
  | encode running encoderStep =>
    cases encoderStep.sent_cases with
    | inl same =>
      refine Or.inl ?_
      simp [Link.channel, dispatched, Link.encoders, running, same]
    | inr more =>
      obtain ⟨block, sent⟩ := more
      refine Or.inr ?_
      have isSend : LossyChannel.Step s.channel
          { s.channel with sent := s.channel.sent ++ [block.item.data] } := .send
      simpa [Link.channel, dispatched, Link.encoders, running, sent] using isSend
  | finish running ended =>
    refine Or.inl ?_
    simp [Link.channel, dispatched, Link.encoders, running]
  | drop | deliver | close => exact Or.inl rfl
  | decode decoderStep =>
    cases decoderStep.written_cases with
    | inl same =>
      refine Or.inl ?_
      simp [Link.channel, dispatched, Link.encoders, same]
    | inr more =>
      obtain ⟨block, written⟩ := more
      simp only [Link.channel, written] at subperm ⊢
      exact Or.inr (.receive subperm)

/-- Whatever the channel drops and whatever the schedule and the number of workers are, every step
    of a session of at most 256 blocks is a step of a lossy channel for the blocks of its input, or
    cannot be seen. -/
theorem refines_lossy_channel (framed : rq.Framed) (sound : rq.Sound) (setup : Setup rq)
    (sizePositive : 0 < setup.blockSize) (session : Session)
    (quiet : Quiet onError session.input) (short : (setup.chunks session).length ≤ 256) :
    (start setup [session]).channel = ⟨[], []⟩ ∧
      (∀ s s', Reachable setup (start setup [session]) s → Step setup s s' →
        s'.channel = s.channel ∨ LossyChannel.Step s.channel s'.channel) ∧
      ∀ s, Reachable setup (start setup [session]) s →
        Relation.ReflTransGen LossyChannel.Step ⟨[], []⟩ s.channel ∧
          s.channel.sent <+: setup.chunks session := by
  have simulates : ∀ s s', Reachable setup (start setup [session]) s → Step setup s s' →
      s'.channel = s.channel ∨ LossyChannel.Step s.channel s'.channel :=
    fun s s' reaches step => step.channel
      (written_subperm_of_short framed sound sizePositive quiet short (reaches.tail step))
  refine ⟨rfl, simulates, fun s reachable => ⟨?_, ?_⟩⟩
  · induction reachable with
    | refl => exact .refl
    | tail reaches step inductionHypothesis =>
      cases simulates _ _ reaches step with
      | inl same => rwa [same]
      | inr channelStep => exact inductionHypothesis.tail channelStep
  · have sent := (dispatched_blocks sizePositive quiet reachable).map fun block => block.item.data
    rwa [map_data_numbered] at sent

/-- Of two blocks the first one is lost. -/
theorem refines_lossy_channel_systematic :
    ∃ s, Reachable (systematicSetup (show 0 < 200 by decide))
        (start _ [wholeSession 255 (List.replicate 16 1 ++ List.replicate 16 2)]) s ∧ Drained s ∧
      (∀ packet ∈ s.delivered, packet.origin = 1) ∧
      (∀ s s', Reachable (systematicSetup (show 0 < 200 by decide))
          (start _ [wholeSession 255 (List.replicate 16 1 ++ List.replicate 16 2)]) s →
        Step _ s s' → s'.channel = s.channel ∨ LossyChannel.Step s.channel s'.channel) ∧
      Relation.ReflTransGen LossyChannel.Step ⟨[], []⟩ s.channel := by
  have quiet : ∀ session ∈ [wholeSession 255 (List.replicate 16 1 ++ List.replicate 16 2)],
      Quiet onError session.input := by
    simpa using quiet_wholeSession 255 (by simp)
  obtain ⟨s, reachable, drained, kept⟩ := exists_drained_systematic (show 0 < 200 by decide) quiet
    fun packet => packet.origin = 1
  obtain ⟨-, simulates, runs⟩ := refines_lossy_channel Systematic.framed Systematic.sound
    (systematicSetup (show 0 < 200 by decide)) (show 0 < 16 by simp) _
    (quiet _ List.mem_cons_self) (by decide)
  refine ⟨s, reachable, drained, fun packet member => ?_, simulates, (runs s reachable).1⟩
  rw [kept] at member
  simpa using (List.mem_filter.mp member).2

end Link

end GarudaCodec.Core
