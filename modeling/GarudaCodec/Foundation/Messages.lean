import GarudaCodec.Foundation.Readers

/-! # Exact reads from a socket that keeps message boundaries

A receive takes one message; what does not fit the buffer is lost.  So an exact read that needs
several messages ends at the end of the last one it takes, and the next exact read starts with a
fresh message.  `groups` is what a loop of exact reads makes of a list of messages, and
`groups_recover` bounds what messages of other sizes among those of the right size can spoil.
-/

namespace GarudaCodec.Foundation.Messages

open GarudaCodec.Foundation.Readers

inductive MessageEvent where
  | message (bytes : List UInt8)
  | fail (kind : ErrorKind) (stopReading : Bool)
deriving DecidableEq, Repr

/-- The script of what successive receives meet.  At its end a receive waits. -/
abbrev Socket := List MessageEvent

/-- Fills a buffer of the given size by one receive after another; `none` while a receive waits.
    `onError` decides about a failed receive as for `readExactWith`. -/
def receiveExactWith (onError : ErrorKind → Bool → Option ErrorKind) :
    Socket → Nat → Option (Except ErrorKind (List UInt8)) × Socket
  | socket, 0 => (some (.ok []), socket)
  | [], _ + 1 => (none, [])
  | .message [] :: socket, _ + 1 => (some (.error .unexpectedEof), socket)
  | .message (byte :: bytes) :: socket, need + 1 =>
    -- what does not fit the rest of the buffer is lost
    let taken := (byte :: bytes).take (need + 1)
    let (result, socket) := receiveExactWith onError socket (need + 1 - taken.length)
    (result.map (Except.map (taken ++ ·)), socket)
  | .fail kind stopReading :: socket, need + 1 =>
    match onError kind stopReading with
    | none => receiveExactWith onError socket (need + 1)
    | some error => (some (.error error), socket)

variable {onError : ErrorKind → Bool → Option ErrorKind} {size : Nat}

theorem receiveExactWith_suffix (onError : ErrorKind → Bool → Option ErrorKind)
    (socket : Socket) (need : Nat) : (receiveExactWith onError socket need).2 <:+ socket := by
  induction socket generalizing need with
  | nil => cases need <;> simp [receiveExactWith]
  | cons event socket inductionHypothesis =>
    cases need with
    | zero => simp [receiveExactWith]
    | succ need =>
      cases event with
      | message bytes =>
        cases bytes with
        | nil => simp [receiveExactWith]
        | cons byte bytes =>
          simp only [receiveExactWith]
          exact (inductionHypothesis _).trans (List.suffix_cons _ _)
      | fail kind stopReading =>
        simp only [receiveExactWith]
        split
        · exact (inductionHypothesis _).trans (List.suffix_cons _ _)
        · simp

/-! ## Calm sockets -/

/-- Every message has bytes and every failed receive is retried. -/
def Calm (onError : ErrorKind → Bool → Option ErrorKind) (socket : Socket) : Prop :=
  ∀ event ∈ socket, match event with
    | .message bytes => bytes ≠ []
    | .fail kind stopReading => onError kind stopReading = none

theorem Calm.tail {event : MessageEvent} {socket : Socket} (calm : Calm onError (event :: socket)) :
    Calm onError socket :=
  fun other member => calm other (List.mem_cons_of_mem _ member)

theorem Calm.suffix {socket rest : Socket} (calm : Calm onError socket) (suffix : rest <:+ socket) :
    Calm onError rest :=
  fun event member => calm event (suffix.subset member)

/-- The messages a socket will deliver. -/
def messages : Socket → List (List UInt8)
  | [] => []
  | .message bytes :: socket => bytes :: messages socket
  | .fail _ _ :: socket => messages socket

/-- One exact read of a calm socket: it takes messages until they fill the buffer, and waits if they
    do not. -/
theorem Calm.receives {socket : Socket} (calm : Calm onError socket) {need : Nat}
    (positive : 0 < need) :
    (∃ buffer rest, receiveExactWith onError socket need = (some (.ok buffer), rest) ∧
      rest.length < socket.length) ∨
    ∃ rest, receiveExactWith onError socket need = (none, rest) := by
  induction socket generalizing need with
  | nil =>
    obtain ⟨need, rfl⟩ := Nat.exists_eq_add_one.mpr positive
    exact Or.inr ⟨[], rfl⟩
  | cons event socket inductionHypothesis =>
    obtain ⟨need, rfl⟩ := Nat.exists_eq_add_one.mpr positive
    have eventCalm := calm event List.mem_cons_self
    cases event with
    | fail kind stopReading =>
      simp only at eventCalm
      simp only [receiveExactWith, eventCalm]
      cases inductionHypothesis calm.tail (Nat.succ_pos need) with
      | inl filled =>
        obtain ⟨buffer, rest, receives, shorter⟩ := filled
        exact Or.inl ⟨buffer, rest, receives, Nat.lt_succ_of_lt shorter⟩
      | inr waits => exact Or.inr waits
    | message bytes =>
      cases bytes with
      | nil => exact absurd rfl eventCalm
      | cons byte bytes =>
        simp only [receiveExactWith]
        cases Nat.eq_zero_or_pos (need + 1 - ((byte :: bytes).take (need + 1)).length) with
        | inl full =>
          rw [full]
          simp only [receiveExactWith]
          exact Or.inl ⟨_, socket, rfl, Nat.lt_succ_self _⟩
        | inr more =>
          cases inductionHypothesis calm.tail more with
          | inl filled =>
            obtain ⟨buffer, rest, receives, shorter⟩ := filled
            rw [receives]
            exact Or.inl ⟨_, rest, rfl, Nat.lt_succ_of_lt shorter⟩
          | inr waits =>
            obtain ⟨rest, waits⟩ := waits
            rw [waits]
            exact Or.inr ⟨rest, rfl⟩

theorem messages_append (left right : Socket) :
    messages (left ++ right) = messages left ++ messages right := by
  induction left with
  | nil => rfl
  | cons event left inductionHypothesis =>
    cases event with
    | message bytes => simp [messages, inductionHypothesis]
    | fail kind stopReading => simp [messages, inductionHypothesis]

/-- An exact read that comes to an end leaves alone what arrives after that. -/
theorem receiveExactWith_append {socket rest : Socket} {need : Nat}
    {result : Except ErrorKind (List UInt8)}
    (receives : receiveExactWith onError socket need = (some result, rest)) (later : Socket) :
    receiveExactWith onError (socket ++ later) need = (some result, rest ++ later) := by
  induction socket generalizing need result with
  | nil =>
    cases need with
    | zero =>
      simp only [receiveExactWith, Prod.mk.injEq, Option.some.injEq] at receives
      simp [receiveExactWith, ← receives.1, ← receives.2]
    | succ need => simp [receiveExactWith] at receives
  | cons event socket inductionHypothesis =>
    cases need with
    | zero =>
      simp only [receiveExactWith, Prod.mk.injEq, Option.some.injEq] at receives
      simp [receiveExactWith, ← receives.1, ← receives.2]
    | succ need =>
      cases event with
      | fail kind stopReading =>
        simp only [receiveExactWith, List.cons_append] at receives ⊢
        cases decided : onError kind stopReading with
        | none =>
          simp only [decided] at receives
          exact inductionHypothesis receives
        | some error =>
          simp only [decided, Prod.mk.injEq, Option.some.injEq] at receives
          simp [← receives.1, ← receives.2]
      | message bytes =>
        cases bytes with
        | nil =>
          simp only [receiveExactWith, Prod.mk.injEq, Option.some.injEq] at receives
          simp [receiveExactWith, ← receives.1, ← receives.2]
        | cons byte bytes =>
          simp only [receiveExactWith, List.cons_append, Prod.mk.injEq] at receives ⊢
          obtain ⟨filled, left⟩ := receives
          cases outcome : (receiveExactWith onError socket
              (need + 1 - ((byte :: bytes).take (need + 1)).length)).1 with
          | none =>
            rw [outcome] at filled
            cases filled
          | some inner =>
            have more := inductionHypothesis (Prod.ext outcome left)
            rw [outcome] at filled
            rw [more]
            exact ⟨filled, rfl⟩

/-- Where an exact read of a calm socket would wait, a failed receive that is not retried ends
    it. -/
theorem Calm.gives_up {socket rest : Socket} (calm : Calm onError socket) {need : Nat}
    (waits : receiveExactWith onError socket need = (none, rest)) {kind error : ErrorKind}
    {stopReading : Bool} (fails : onError kind stopReading = some error) (later : Socket) :
    receiveExactWith onError (socket ++ .fail kind stopReading :: later) need =
      (some (.error error), later) := by
  induction socket generalizing need with
  | nil =>
    cases need with
    | zero => simp [receiveExactWith] at waits
    | succ need => simp [receiveExactWith, fails]
  | cons event socket inductionHypothesis =>
    cases need with
    | zero => simp [receiveExactWith] at waits
    | succ need =>
      have eventCalm := calm event List.mem_cons_self
      cases event with
      | fail otherKind otherStop =>
        simp only at eventCalm
        simp only [receiveExactWith, eventCalm, List.cons_append] at waits ⊢
        exact inductionHypothesis calm.tail waits
      | message bytes =>
        cases bytes with
        | nil => exact absurd rfl eventCalm
        | cons byte bytes =>
          simp only [receiveExactWith, List.cons_append, Prod.mk.injEq,
            Option.map_eq_none_iff] at waits ⊢
          obtain ⟨unfilled, left⟩ := waits
          rw [inductionHypothesis calm.tail (Prod.ext unfilled left)]
          exact ⟨rfl, rfl⟩

/-! ## A loop of exact reads -/

/-- What a loop makes of messages: it gathers them until they fill a buffer, where a part of the
    last one may be lost, and starts again.  `held` is what the current buffer has. -/
def groups (size : Nat) : List UInt8 → List (List UInt8) → List (List UInt8)
  | _, [] => []
  | held, message :: messages =>
    let filled := held ++ message.take (size - held.length)
    if filled.length < size then groups size filled messages
    else filled :: groups size [] messages

/-- One exact read from a calm socket, on the messages it has. -/
theorem groups_receiveExactWith {socket : Socket} (calm : Calm onError socket)
    {held : List UInt8} (short : held.length < size) :
    groups size held (messages socket) =
      match receiveExactWith onError socket (size - held.length) with
      | (some (.ok buffer), rest) => (held ++ buffer) :: groups size [] (messages rest)
      | (_, _) => [] := by
  induction socket generalizing held with
  | nil =>
    obtain ⟨need, isNeed⟩ := Nat.exists_eq_add_one.mpr (Nat.sub_pos_of_lt short)
    simp [isNeed, receiveExactWith, messages, groups]
  | cons event socket inductionHypothesis =>
    obtain ⟨need, isNeed⟩ := Nat.exists_eq_add_one.mpr (Nat.sub_pos_of_lt short)
    have eventCalm := calm event List.mem_cons_self
    cases event with
    | fail kind stopReading =>
      simp only at eventCalm
      have rest := inductionHypothesis calm.tail short
      simp only [isNeed] at rest
      simp only [isNeed, receiveExactWith, eventCalm, messages]
      exact rest
    | message bytes =>
      cases bytes with
      | nil => exact absurd rfl eventCalm
      | cons byte bytes =>
        have taken : ((byte :: bytes).take (need + 1)).length ≤ need + 1 := List.length_take_le _ _
        have needs : size - (held ++ (byte :: bytes).take (need + 1)).length =
            need + 1 - ((byte :: bytes).take (need + 1)).length := by
          simp only [List.length_append]
          omega
        simp only [messages, groups, isNeed, receiveExactWith]
        split
        next more =>
          have rest := inductionHypothesis calm.tail more
          rw [rest, needs]
          generalize receiveExactWith onError socket _ = outcome
          obtain ⟨result, left⟩ := outcome
          cases result with
          | none => rfl
          | some result => cases result <;> simp [Except.map]
        next full =>
          have nothing : need + 1 - ((byte :: bytes).take (need + 1)).length = 0 := by
            rw [List.length_append] at full
            omega
          rw [nothing]
          simp [receiveExactWith, Except.map]

/-- Messages of the right size come out as they are. -/
theorem groups_whole {messages : List (List UInt8)}
    (whole : ∀ message ∈ messages, message.length = size) : groups size [] messages = messages := by
  induction messages with
  | nil => rfl
  | cons message messages inductionHypothesis =>
    have fits : message.length = size := whole message List.mem_cons_self
    have rest := inductionHypothesis fun other member => whole other (List.mem_cons_of_mem _ member)
    simp [groups, ← fits] at rest ⊢
    exact rest

/-! ## Messages of other sizes -/

/-- The messages that count, and those that are in the way. -/
def own (tagged : List (Bool × List UInt8)) : List (List UInt8) :=
  (tagged.filter fun message => message.1).map Prod.snd

def foreign (tagged : List (Bool × List UInt8)) : List (List UInt8) :=
  (tagged.filter fun message => !message.1).map Prod.snd

/-- How many messages in the way are too short to fill a buffer. -/
def shortForeign (size : Nat) (tagged : List (Bool × List UInt8)) : Nat :=
  (foreign tagged).countP fun message => message.length < size

/-- What a loop recovers that holds a part of a buffer already: its current buffer is lost, and with
    it at most one more message. -/
structure Recovers (size : Nat) (held : List UInt8) (tagged : List (Bool × List UInt8))
    (recovered : List (List UInt8)) (lost : Nat) : Prop where
  fromOwn : recovered.Sublist (own tagged)
  inGroups : recovered.Sublist (groups size held (tagged.map Prod.snd))
  missing : (own tagged).length ≤ recovered.length + shortForeign size tagged + lost
  extra : (groups size held (tagged.map Prod.snd)).length ≤
    recovered.length + (foreign tagged).length + lost

theorem own_cons_true (bytes : List UInt8) (tagged : List (Bool × List UInt8)) :
    own ((true, bytes) :: tagged) = bytes :: own tagged := by
  simp [own]

theorem own_cons_false (bytes : List UInt8) (tagged : List (Bool × List UInt8)) :
    own ((false, bytes) :: tagged) = own tagged := by
  simp [own]

theorem foreign_cons_true (bytes : List UInt8) (tagged : List (Bool × List UInt8)) :
    foreign ((true, bytes) :: tagged) = foreign tagged := by
  simp [foreign]

theorem foreign_cons_false (bytes : List UInt8) (tagged : List (Bool × List UInt8)) :
    foreign ((false, bytes) :: tagged) = bytes :: foreign tagged := by
  simp [foreign]

attribute [local simp] own_cons_true own_cons_false foreign_cons_true foreign_cons_false

/-- In step, a message of the right size comes out as it is. -/
theorem Recovers.inStep {bytes : List UInt8} (whole : bytes.length = size)
    {tagged : List (Bool × List UInt8)} {recovered : List (List UInt8)} {lost : Nat}
    (recovers : Recovers size [] tagged recovered lost) :
    Recovers size [] ((true, bytes) :: tagged) (bytes :: recovered) lost := by
  have emits : groups size [] (bytes :: tagged.map Prod.snd) =
      bytes :: groups size [] (tagged.map Prod.snd) := by
    simp [groups, ← whole]
  have missing := recovers.missing
  have extra := recovers.extra
  constructor
  · simpa using recovers.fromOwn
  · simpa [emits] using recovers.inGroups
  · simp only [shortForeign, own_cons_true, foreign_cons_true, List.length_cons] at missing ⊢
    omega
  · simp only [List.map_cons, emits, foreign_cons_true, List.length_cons]
    omega

/-- Out of step, a message of the right size is lost with the buffer it fills. -/
theorem Recovers.outOfStep {held bytes : List UInt8} (whole : bytes.length = size)
    {tagged : List (Bool × List UInt8)} {recovered : List (List UInt8)} {lost : Nat}
    (recovers : Recovers size [] tagged recovered lost) :
    Recovers size held ((true, bytes) :: tagged) recovered (lost + 1) := by
  have filled : ¬(held ++ bytes.take (size - held.length)).length < size := by
    simp only [List.length_append, List.length_take]
    omega
  have emits : groups size held (bytes :: tagged.map Prod.snd) =
      (held ++ bytes.take (size - held.length)) :: groups size [] (tagged.map Prod.snd) := by
    rw [groups, if_neg filled]
  have missing := recovers.missing
  have extra := recovers.extra
  constructor
  · simpa using recovers.fromOwn.cons bytes
  · simpa [emits] using recovers.inGroups.cons _
  · simp only [shortForeign, own_cons_true, foreign_cons_true, List.length_cons] at missing ⊢
    omega
  · simp only [List.map_cons, emits, foreign_cons_true, List.length_cons]
    omega

/-- A message in the way fills the buffer. -/
theorem Recovers.filled {held bytes : List UInt8}
    (full : ¬(held ++ bytes.take (size - held.length)).length < size)
    {tagged : List (Bool × List UInt8)} {recovered : List (List UInt8)} {lost : Nat}
    (recovers : Recovers size [] tagged recovered lost) :
    Recovers size held ((false, bytes) :: tagged) recovered lost := by
  have emits : groups size held (bytes :: tagged.map Prod.snd) =
      (held ++ bytes.take (size - held.length)) :: groups size [] (tagged.map Prod.snd) := by
    rw [groups, if_neg full]
  have missing := recovers.missing
  have extra := recovers.extra
  constructor
  · simpa using recovers.fromOwn
  · simpa [emits] using recovers.inGroups.cons _
  · simp only [shortForeign, own_cons_false, foreign_cons_false, List.countP_cons] at missing ⊢
    omega
  · simp only [List.map_cons, emits, foreign_cons_false, List.length_cons]
    omega

/-- A message in the way that is too short for the buffer puts the loop out of step. -/
theorem Recovers.gathered {held bytes : List UInt8}
    (more : (held ++ bytes.take (size - held.length)).length < size)
    {tagged : List (Bool × List UInt8)} {recovered : List (List UInt8)} {lost : Nat}
    (recovers :
      Recovers size (held ++ bytes.take (size - held.length)) tagged recovered (lost + 1)) :
    Recovers size held ((false, bytes) :: tagged) recovered lost := by
  have short : bytes.length < size := by
    simp only [List.length_append, List.length_take] at more
    omega
  have gathers : groups size held (bytes :: tagged.map Prod.snd) =
      groups size (held ++ bytes.take (size - held.length)) (tagged.map Prod.snd) := by
    rw [groups, if_pos more]
  have missing := recovers.missing
  have extra := recovers.extra
  constructor
  · simpa using recovers.fromOwn
  · simpa [gathers] using recovers.inGroups
  · simp only [shortForeign, own_cons_false, foreign_cons_false, List.countP_cons, short,
      decide_true, if_true] at missing ⊢
    omega
  · simp only [List.map_cons, gathers, foreign_cons_false, List.length_cons]
    omega

theorem Recovers.weaken {held : List UInt8} {tagged : List (Bool × List UInt8)}
    {recovered : List (List UInt8)} {lost more : Nat} (fewer : lost ≤ more)
    (recovers : Recovers size held tagged recovered lost) :
    Recovers size held tagged recovered more :=
  ⟨recovers.fromOwn, recovers.inGroups,
    Nat.le_trans recovers.missing (Nat.add_le_add_left fewer _),
    Nat.le_trans recovers.extra (Nat.add_le_add_left fewer _)⟩

/-- A loop that meets messages of other sizes falls into step again by itself: it loses at most one
    of its own messages for each one that is too short, and makes up at most one buffer for each
    one that is not its own. -/
theorem groups_recover {held : List UInt8} (short : held.length < size)
    (tagged : List (Bool × List UInt8)) (sized : ∀ bytes ∈ own tagged, bytes.length = size) :
    ∃ recovered, Recovers size held tagged recovered (if held = [] then 0 else 1) := by
  induction tagged generalizing held with
  | nil => exact ⟨[], by simp [own], by simp, by simp [own], by simp [groups]⟩
  | cons message tagged inductionHypothesis =>
    have empty : ([] : List UInt8).length < size := Nat.zero_lt_of_lt short
    obtain ⟨isOwn, bytes⟩ := message
    cases isOwn with
    | true =>
      have whole : bytes.length = size := sized bytes (by simp)
      obtain ⟨recovered, recovers⟩ :=
        inductionHypothesis empty fun later member => sized later (by simp [member])
      cases held with
      | nil => exact ⟨_, recovers.inStep whole⟩
      | cons byte held => exact ⟨_, recovers.outOfStep whole⟩
    | false =>
      have rest : ∀ later ∈ own tagged, later.length = size := by simpa using sized
      cases Nat.lt_or_ge (held ++ bytes.take (size - held.length)).length size with
      | inl more =>
        obtain ⟨recovered, recovers⟩ := inductionHypothesis more rest
        exact ⟨_, (recovers.weaken (by split <;> omega)).gathered more⟩
      | inr full =>
        obtain ⟨recovered, recovers⟩ := inductionHypothesis empty rest
        exact ⟨_, (recovers.filled (Nat.not_lt.mpr full)).weaken (by simp)⟩

end GarudaCodec.Foundation.Messages
