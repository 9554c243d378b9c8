/-! # Results of code that can fail or panic

A function either returns a value, returns an error, or panics.  Sequencing stops at the first
error or panic; calls of foreign code that panic on a violated precondition are partial
functions, lifted by `Outcome.orPanic`.
-/

namespace GarudaCodec.Foundation

inductive Outcome (ε α : Type) where
  | ok (value : α)
  | err (error : ε)
  | panic
deriving DecidableEq, Repr

namespace Outcome

variable {ε ε' α β : Type}

def bind : Outcome ε α → (α → Outcome ε β) → Outcome ε β
  | .ok value, next => next value
  | .err error, _ => .err error
  | .panic, _ => .panic

instance : Monad (Outcome ε) where
  pure := .ok
  bind := bind

/-- The conversion that `?` applies to the error of a callee. -/
def mapErr (convert : ε → ε') : Outcome ε α → Outcome ε' α
  | .ok value => .ok value
  | .err error => .err (convert error)
  | .panic => .panic

/-- A call of foreign code, where `none` is a panic. -/
def orPanic : Option α → Outcome ε α
  | some value => .ok value
  | none => .panic

/-- `Option::ok_or`. -/
def okOr (error : ε) : Option α → Outcome ε α
  | some value => .ok value
  | none => .err error

/-- A result whose error is converted by `?`. -/
def ofExcept (convert : ε' → ε) : Except ε' α → Outcome ε α
  | .ok value => .ok value
  | .error error => .err (convert error)

@[simp] theorem bind_ok (value : α) (next : α → Outcome ε β) : (.ok value >>= next) = next value :=
  rfl

@[simp] theorem bind_err (error : ε) (next : α → Outcome ε β) :
    (Outcome.err error >>= next) = .err error := rfl

@[simp] theorem bind_panic (next : α → Outcome ε β) :
    ((Outcome.panic : Outcome ε α) >>= next) = .panic := rfl

@[simp] theorem orPanic_some (value : α) : (orPanic (some value) : Outcome ε α) = .ok value := rfl

theorem bind_eq_ok {outcome : Outcome ε α} {next : α → Outcome ε β} {result : β} :
    (outcome >>= next) = .ok result ↔ ∃ value, outcome = .ok value ∧ next value = .ok result := by
  cases outcome with
  | ok value => simp
  | err error => simp
  | panic => simp

@[simp] theorem okOr_some (error : ε) (value : α) : okOr error (some value) = .ok value := rfl

@[simp] theorem ofExcept_ok (convert : ε' → ε) (value : α) :
    ofExcept convert (.ok value) = .ok value := rfl

@[simp] theorem orPanic_eq_ok {call : Option α} {value : α} :
    (orPanic call : Outcome ε α) = .ok value ↔ call = some value := by
  cases call <;> simp [orPanic]

@[simp] theorem mapErr_eq_ok {convert : ε → ε'} {outcome : Outcome ε α} {value : α} :
    outcome.mapErr convert = .ok value ↔ outcome = .ok value := by
  cases outcome <;> simp [mapErr]

end Outcome

end GarudaCodec.Foundation
