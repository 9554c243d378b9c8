import Mathlib.Data.List.Basic

/-! # Byte readers and exact reads

A reader is the script of what its successive reads meet: bytes that have become available, or a
failing read together with the value a stop flag has at that moment.  A read takes as many
available bytes as fit its buffer, so scripts cover every fragmentation of a byte stream; the end
of the script is the end of the stream.

`readExactWith` fills a buffer by repeated reads under a policy that says which failures are
retried.  On a `Quiet` reader, where every failure is retried, it returns the next bytes of the
stream whatever the fragmentation.
-/

namespace GarudaCodec.Foundation.Readers

inductive ErrorKind where
  | interrupted
  | wouldBlock
  | timedOut
  | unexpectedEof
  | other
deriving DecidableEq, Repr

inductive ReadEvent where
  | data (bytes : List UInt8)
  | fail (kind : ErrorKind) (stopReading : Bool)
deriving DecidableEq, Repr

abbrev Reader := List ReadEvent

inductive ReadResult where
  | ok (bytes : List UInt8)
  | err (kind : ErrorKind) (stopReading : Bool)

/-- One read into a buffer of `len` bytes. -/
def read : Reader → Nat → ReadResult × Reader
  | [], _ => (.ok [], [])
  | .data bytes :: rest, len =>
    if bytes.length ≤ len then (.ok bytes, rest)
    else (.ok (bytes.take len), .data (bytes.drop len) :: rest)
  | .fail kind stopReading :: rest, _ => (.err kind stopReading, rest)

/-- All bytes the reader will deliver. -/
def contents (reader : Reader) : List UInt8 :=
  reader.flatMap fun event => match event with
    | .data bytes => bytes
    | .fail _ _ => []

@[simp] theorem contents_nil : contents [] = [] := rfl
@[simp] theorem contents_data (bytes : List UInt8) (rest : Reader) :
    contents (.data bytes :: rest) = bytes ++ contents rest := rfl
@[simp] theorem contents_fail (kind : ErrorKind) (stopReading : Bool) (rest : Reader) :
    contents (.fail kind stopReading :: rest) = contents rest := rfl
@[simp] theorem contents_append (left right : Reader) :
    contents (left ++ right) = contents left ++ contents right := by
  simp [contents]

/-- What is left of the script, counted in bytes and events. -/
def weight (reader : Reader) : Nat := (contents reader).length + reader.length

theorem read_weight {reader rest : Reader} {len : Nat} {result : ReadResult}
    (reads : read reader len = (result, rest)) :
    weight rest ≤ weight reader ∧ (result = .ok [] ∨ len = 0 ∨ weight rest < weight reader) := by
  cases reader with
  | nil =>
    obtain ⟨rfl, rfl⟩ := Prod.mk.inj reads
    exact ⟨Nat.le_refl _, Or.inl rfl⟩
  | cons event reader =>
    cases event with
    | fail kind stopReading =>
      obtain ⟨rfl, rfl⟩ := Prod.mk.inj reads
      simp [weight]
    | data bytes =>
      rw [read] at reads
      split at reads
      · obtain ⟨rfl, rfl⟩ := Prod.mk.inj reads
        simp only [weight, contents_data, List.length_append, List.length_cons]
        omega
      · obtain ⟨rfl, rfl⟩ := Prod.mk.inj reads
        simp only [weight, contents_data, List.length_append, List.length_cons, List.length_drop]
        omega

theorem length_read_le {reader rest : Reader} {len : Nat} {bytes : List UInt8}
    (reads : read reader len = (.ok bytes, rest)) : bytes.length ≤ len := by
  cases reader with
  | nil =>
    obtain ⟨same, -⟩ := Prod.mk.inj reads
    cases same
    exact Nat.zero_le _
  | cons event reader =>
    cases event with
    | fail kind stopReading => cases reads
    | data available =>
      rw [read] at reads
      split at reads
      · next fits =>
        cases reads
        exact fits
      · cases reads
        rw [List.length_take]
        exact Nat.min_le_left _ _

/-- Fills a buffer of `need` bytes.  `onError` decides about a failed read: `none` retries it,
    `some kind` gives up with that error. -/
def readExactWith (onError : ErrorKind → Bool → Option ErrorKind) (reader : Reader)
    (need : Nat) : Except ErrorKind (List UInt8) × Reader :=
  if _hneed : need = 0 then (.ok [], reader)
  else
    match _hread : read reader need with
    | (.ok [], rest) => (.error .unexpectedEof, rest)
    | (.ok (byte :: bytes), rest) =>
      let (result, rest) := readExactWith onError rest (need - (byte :: bytes).length)
      (result.map ((byte :: bytes) ++ ·), rest)
    | (.err kind stopReading, rest) =>
      match onError kind stopReading with
      | none => readExactWith onError rest need
      | some kind => (.error kind, rest)
termination_by weight reader
decreasing_by
  -- a read that is not the end of the stream and asks for something uses up the script
  · obtain ⟨-, empty | zero | less⟩ := read_weight _hread
    · simp at empty
    · exact absurd zero _hneed
    · exact less
  · obtain ⟨-, empty | zero | less⟩ := read_weight _hread
    · simp at empty
    · exact absurd zero _hneed
    · exact less

variable {onError : ErrorKind → Bool → Option ErrorKind}

@[simp] theorem readExactWith_zero (reader : Reader) :
    readExactWith onError reader 0 = (.ok [], reader) := by
  rw [readExactWith]
  simp

theorem readExactWith_nil {need : Nat} (positive : 0 < need) :
    readExactWith onError [] need = (.error .unexpectedEof, []) := by
  rw [readExactWith, dif_neg (by omega)]
  rfl

/-- The bytes of the first event fit the buffer: they are taken, and reading goes on. -/
theorem readExactWith_data_short {bytes : List UInt8} {rest : Reader} {need : Nat}
    (nonempty : bytes ≠ []) (fits : bytes.length ≤ need) :
    readExactWith onError (.data bytes :: rest) need =
      ((readExactWith onError rest (need - bytes.length)).1.map (bytes ++ ·),
        (readExactWith onError rest (need - bytes.length)).2) := by
  cases bytes with
  | nil => exact absurd rfl nonempty
  | cons byte bytes =>
    have positive : need ≠ 0 := by
      rintro rfl
      simp at fits
    rw [readExactWith, dif_neg positive]
    have reads : read (.data (byte :: bytes) :: rest) need = (.ok (byte :: bytes), rest) := by
      rw [read, if_pos fits]
    split
    · next empty => simp [reads] at empty
    · next other others rest' same =>
      rw [reads] at same
      cases same
      rfl
    · next failed => simp [reads] at failed

/-- The first event has more bytes than the buffer takes. -/
theorem readExactWith_data_long {bytes : List UInt8} {rest : Reader} {need : Nat}
    (more : need < bytes.length) :
    readExactWith onError (.data bytes :: rest) need =
      (.ok (bytes.take need), .data (bytes.drop need) :: rest) := by
  by_cases zero : need = 0
  · subst zero
    simp
  rw [readExactWith, dif_neg zero]
  have reads : read (.data bytes :: rest) need =
      (.ok (bytes.take need), .data (bytes.drop need) :: rest) := by
    rw [read, if_neg (by omega)]
  -- the one read fills the buffer, and what the event has left stays at the front
  have full : (bytes.take need).length = need := by
    rw [List.length_take]
    omega
  split
  · next empty =>
    rw [reads] at empty
    injection empty with empty
    injection empty with empty
    rw [empty] at full
    exact absurd full.symm zero
  · next byte taken rest' same =>
    rw [reads] at same
    injection same with takes rests
    injection takes with takes
    rw [← takes, full, Nat.sub_self, readExactWith_zero, ← rests]
    simp [Except.map]
  · next failed => simp [reads] at failed

/-- A read that returns no bytes is the end of the stream, whatever follows it. -/
theorem readExactWith_empty {rest : Reader} {need : Nat} (positive : 0 < need) :
    readExactWith onError (.data [] :: rest) need = (.error .unexpectedEof, rest) := by
  have reads : read (.data [] :: rest) need = (.ok [], rest) := by
    have fits : ([] : List UInt8).length ≤ need := Nat.zero_le need
    rw [read, if_pos fits]
  rw [readExactWith, dif_neg (by omega)]
  split
  · next same =>
    rw [reads] at same
    cases same
    rfl
  · next other => simp [reads] at other
  · next failed => simp [reads] at failed

theorem readExactWith_retry {kind : ErrorKind} {stopReading : Bool} {rest : Reader} {need : Nat}
    (positive : 0 < need) (retried : onError kind stopReading = none) :
    readExactWith onError (.fail kind stopReading :: rest) need =
      readExactWith onError rest need := by
  rw [readExactWith, dif_neg (by omega)]
  simp only [read, retried]

theorem readExactWith_fail {kind error : ErrorKind} {stopReading : Bool} {rest : Reader}
    {need : Nat} (positive : 0 < need) (given : onError kind stopReading = some error) :
    readExactWith onError (.fail kind stopReading :: rest) need = (.error error, rest) := by
  rw [readExactWith, dif_neg (by omega)]
  simp only [read, given]

/-- How an exact read fills its buffer: retrying, taking whole events, and leaving what it does not
    need of the last one at the front. -/
inductive Fills (onError : ErrorKind → Bool → Option ErrorKind) :
    Reader → Nat → List UInt8 → Reader → Prop
  | nothing (reader : Reader) : Fills onError reader 0 [] reader
  | retry {kind stopReading reader need bytes rest} :
      onError kind stopReading = none → Fills onError reader need bytes rest →
      Fills onError (.fail kind stopReading :: reader) need bytes rest
  | long {available reader need} : 0 < need → need < available.length →
      Fills onError (.data available :: reader) need (available.take need)
        (.data (available.drop need) :: reader)
  | short {available reader need bytes rest} : available ≠ [] → available.length ≤ need →
      Fills onError reader (need - available.length) bytes rest →
      Fills onError (.data available :: reader) need (available ++ bytes) rest

/-- A read that returns bytes has filled its buffer. -/
theorem fills_of_readExactWith {reader rest : Reader} {need : Nat} {bytes : List UInt8}
    (reads : readExactWith onError reader need = (.ok bytes, rest)) :
    Fills onError reader need bytes rest := by
  induction reader generalizing rest need bytes with
  | nil =>
    rcases Nat.eq_zero_or_pos need with rfl | positive
    · rw [readExactWith_zero] at reads
      cases reads
      exact .nothing []
    · simp [readExactWith_nil positive] at reads
  | cons event reader inductionHypothesis =>
    rcases Nat.eq_zero_or_pos need with rfl | positive
    · rw [readExactWith_zero] at reads
      cases reads
      exact .nothing (event :: reader)
    cases event with
    | fail kind stopReading =>
      cases given : onError kind stopReading with
      | none =>
        rw [readExactWith_retry positive given] at reads
        exact .retry given (inductionHypothesis reads)
      | some error => simp [readExactWith_fail positive given] at reads
    | data available =>
      by_cases more : need < available.length
      · rw [readExactWith_data_long more] at reads
        cases reads
        exact .long positive more
      by_cases empty : available = []
      · subst empty
        simp [readExactWith_empty positive] at reads
      · rw [readExactWith_data_short empty (by omega)] at reads
        obtain ⟨mapped, same⟩ := Prod.mk.inj reads
        cases inner : (readExactWith onError reader (need - available.length)).1 with
        | error kind => simp [inner, Except.map] at mapped
        | ok tail =>
          obtain rfl : available ++ tail = bytes := by simpa [inner, Except.map] using mapped
          exact .short empty (by omega) (inductionHypothesis (Prod.ext inner same))

theorem Fills.length_eq {reader rest : Reader} {need : Nat} {bytes : List UInt8}
    (fills : Fills onError reader need bytes rest) : bytes.length = need := by
  induction fills with
  | nothing reader => rfl
  | retry given fills inductionHypothesis => exact inductionHypothesis
  | long positive more =>
    rw [List.length_take]
    omega
  | short nonempty fits fills inductionHypothesis =>
    rw [List.length_append, inductionHypothesis]
    omega

/-- A filled buffer has the size asked for. -/
theorem length_readExactWith {reader rest : Reader} {need : Nat} {bytes : List UInt8}
    (reads : readExactWith onError reader need = (.ok bytes, rest)) : bytes.length = need :=
  (fills_of_readExactWith reads).length_eq

theorem Fills.weight_le {reader rest : Reader} {need : Nat} {bytes : List UInt8}
    (fills : Fills onError reader need bytes rest) :
    weight rest ≤ weight reader ∧ (0 < need → weight rest < weight reader) := by
  induction fills with
  | nothing reader => simp
  | retry given fills inductionHypothesis =>
    simp only [weight, contents_fail, List.length_cons] at inductionHypothesis ⊢
    omega
  | long positive more =>
    simp only [weight, contents_data, List.length_append, List.length_cons, List.length_drop]
    omega
  | short nonempty fits fills inductionHypothesis =>
    simp only [weight, contents_data, List.length_append, List.length_cons] at inductionHypothesis ⊢
    omega

/-- A filled buffer has used up a part of the script. -/
theorem weight_readExactWith {reader rest : Reader} {need : Nat} {bytes : List UInt8}
    (positive : 0 < need) (reads : readExactWith onError reader need = (.ok bytes, rest)) :
    weight rest < weight reader :=
  (fills_of_readExactWith reads).weight_le.2 positive

/-- Every event of a quiet reader delivers bytes or is retried. -/
def Quiet (onError : ErrorKind → Bool → Option ErrorKind) (reader : Reader) : Prop :=
  ∀ event ∈ reader, match event with
    | .data bytes => bytes ≠ []
    | .fail kind stopReading => onError kind stopReading = none

theorem Quiet.nil : Quiet onError [] := by
  intro event member
  cases member

theorem Quiet.tail {event : ReadEvent} {reader : Reader}
    (quiet : Quiet onError (event :: reader)) : Quiet onError reader :=
  fun other member => quiet other (List.mem_cons_of_mem _ member)

theorem Quiet.cons {event : ReadEvent} {reader : Reader}
    (head : Quiet onError [event]) (tail : Quiet onError reader) :
    Quiet onError (event :: reader) := by
  intro other member
  rcases List.mem_cons.mp member with rfl | inTail
  · exact head other List.mem_cons_self
  · exact tail other inTail

theorem Quiet.append {left right : Reader} (quietLeft : Quiet onError left)
    (quietRight : Quiet onError right) : Quiet onError (left ++ right) := by
  intro event member
  rcases List.mem_append.mp member with inLeft | inRight
  · exact quietLeft event inLeft
  · exact quietRight event inRight

/-- An exact read that a quiet part of the reader has enough bytes for returns the next ones. -/
theorem Quiet.reads_append {before : Reader} (quiet : Quiet onError before) (tail : Reader)
    {need : Nat} (enough : need ≤ (contents before).length) :
    ∃ rest, readExactWith onError (before ++ tail) need =
        (.ok ((contents before).take need), rest ++ tail) ∧
      Quiet onError rest ∧ contents rest = (contents before).drop need := by
  induction before generalizing need with
  | nil =>
    obtain rfl : need = 0 := by simpa using enough
    exact ⟨[], by simp, quiet, rfl⟩
  | cons event before inductionHypothesis =>
    rcases Nat.eq_zero_or_pos need with rfl | positive
    · exact ⟨event :: before, by simp, quiet, by simp⟩
    have eventQuiet := quiet event List.mem_cons_self
    rw [List.cons_append]
    cases event with
    | fail kind stopReading =>
      obtain ⟨rest, reads, restQuiet, restContents⟩ := inductionHypothesis quiet.tail enough
      exact ⟨rest, by rw [readExactWith_retry positive eventQuiet, reads, contents_fail],
        restQuiet, restContents⟩
    | data bytes =>
      by_cases more : need < bytes.length
      · refine ⟨.data (bytes.drop need) :: before, ?_, ?_, ?_⟩
        · rw [readExactWith_data_long more, contents_data,
            List.take_append_of_le_length (by omega), List.cons_append]
        -- what is left of the event is not empty, or it would read as the end of the stream
        · have left : bytes.drop need ≠ [] := by simpa using more
          exact .cons (by simpa [Quiet] using left) quiet.tail
        · rw [contents_data, contents_data, List.drop_append_of_le_length (by omega)]
      · rw [contents_data, List.length_append] at enough
        obtain ⟨rest, reads, restQuiet, restContents⟩ :=
          inductionHypothesis quiet.tail
            (by omega : need - bytes.length ≤ (contents before).length)
        refine ⟨rest, ?_, restQuiet, ?_⟩
        · rw [readExactWith_data_short eventQuiet (by omega), reads, contents_data,
            List.take_append, List.take_of_length_le (l := bytes) (by omega)]
          rfl
        · rw [restContents, contents_data, List.drop_append,
            List.drop_of_length_le (l := bytes) (by omega), List.nil_append]

/-- An exact read takes a quiet part that is too short whole, and asks what follows for the rest. -/
theorem Quiet.reads_through {before : Reader} (quiet : Quiet onError before) (tail : Reader)
    {need : Nat} (few : (contents before).length < need) :
    readExactWith onError (before ++ tail) need =
      ((readExactWith onError tail (need - (contents before).length)).1.map (contents before ++ ·),
        (readExactWith onError tail (need - (contents before).length)).2) := by
  induction before generalizing need with
  | nil =>
    rw [contents_nil, List.length_nil, Nat.sub_zero, List.nil_append]
    generalize readExactWith onError tail need = outcome
    obtain ⟨result, rest⟩ := outcome
    cases result with
    | error kind => rfl
    | ok bytes => rfl
  | cons event before inductionHypothesis =>
    have eventQuiet := quiet event List.mem_cons_self
    rw [List.cons_append]
    cases event with
    | fail kind stopReading =>
      rw [readExactWith_retry (by omega) eventQuiet, contents_fail]
      exact inductionHypothesis quiet.tail few
    | data bytes =>
      rw [contents_data, List.length_append] at few ⊢
      rw [readExactWith_data_short eventQuiet (by omega),
        inductionHypothesis quiet.tail (by omega), Nat.sub_sub]
      generalize readExactWith onError tail _ = outcome
      obtain ⟨result, rest⟩ := outcome
      cases result with
      | error kind => rfl
      | ok others => simp [Except.map]

/-- An exact read from a quiet reader that has enough bytes returns the next ones. -/
theorem Quiet.reads {reader : Reader} (quiet : Quiet onError reader) {need : Nat}
    (enough : need ≤ (contents reader).length) :
    ∃ rest, readExactWith onError reader need = (.ok ((contents reader).take need), rest) ∧
      Quiet onError rest ∧ contents rest = (contents reader).drop need := by
  have reads := quiet.reads_append [] enough
  simp only [List.append_nil] at reads
  exact reads

/-- An exact read of as many bytes as some that stand in front takes these. -/
theorem Quiet.reads_front {reader : Reader} (quiet : Quiet onError reader)
    {front rest : List UInt8} (content : contents reader = front ++ rest) :
    ∃ left, readExactWith onError reader front.length = (.ok front, left) ∧
      Quiet onError left ∧ contents left = rest := by
  have enough : front.length ≤ (contents reader).length := by
    rw [content, List.length_append]
    omega
  have reads := quiet.reads enough
  rw [content, List.take_left, List.drop_left] at reads
  exact reads

/-- An exact read from a quiet reader that has too few bytes ends at the end of the stream. -/
theorem Quiet.reads_eof {reader : Reader} (quiet : Quiet onError reader) {need : Nat}
    (few : (contents reader).length < need) :
    readExactWith onError reader need = (.error .unexpectedEof, []) := by
  have reads := quiet.reads_through [] few
  rw [List.append_nil, readExactWith_nil (by omega)] at reads
  exact reads

/-- Exact reads of a positive size come to an end: an induction along them. -/
theorem readExactWith_induction (onError : ErrorKind → Bool → Option ErrorKind) {need : Nat}
    (positive : 0 < need) {motive : Reader → Prop}
    (error : ∀ {reader kind rest}, readExactWith onError reader need = (.error kind, rest) →
      motive reader)
    (ok : ∀ {reader buffer rest}, readExactWith onError reader need = (.ok buffer, rest) →
      motive rest → motive reader)
    (reader : Reader) : motive reader := by
  induction counted : weight reader using Nat.strongRecOn generalizing reader with
  | ind left inductionHypothesis =>
    rcases reads : readExactWith onError reader need with ⟨result, rest⟩
    cases result with
    | error kind => exact error reads
    | ok buffer =>
      have shorter := weight_readExactWith positive reads
      exact ok reads (inductionHypothesis _ (counted ▸ shorter) rest rfl)

end GarudaCodec.Foundation.Readers
