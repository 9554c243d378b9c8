import Mathlib.Data.Int.CardIntervalMod
import Mathlib.Data.Nat.Count

/-! # Dealing out by numbers that wrap

Turns are numbered modulo a period and dealt out by the remainder of their numbers modulo the number
of workers.  Within a period this is round robin.  Where a new period begins the dealing starts
afresh, so that the shares of two workers may drift apart by one with every period
(`dealtFrom_le`), and they stay together exactly if the workers divide the period
(`dealtFrom_even_iff`).
-/

namespace GarudaCodec.Foundation.RoundRobin

variable {period workers worker left right start turns : Nat}

/-- How many of the first turns go to a worker. -/
def dealt (period workers worker turns : Nat) : Nat :=
  Nat.count (fun turn => turn % period % workers = worker) turns

/-- How many turns go to a worker if the first one has this number. -/
def dealtFrom (period workers start worker turns : Nat) : Nat :=
  Nat.count (fun turn => (start + turn) % period % workers = worker) turns

/-- Whether a worker with this index gets one turn more in a round that ends early. -/
def extra (worker ends : Nat) : Nat := if worker < ends then 1 else 0

theorem extra_le (worker ends : Nat) : extra worker ends ≤ 1 := by
  rw [extra]
  split <;> simp

/-- Two rounds that end early do not both favour the same one of two workers over the other. -/
theorem extra_balance (left right ends starts : Nat) :
    extra left ends + extra right starts ≤ extra right ends + extra left starts + 1 := by
  simp only [extra]
  split <;> split <;> split <;> split <;> omega

theorem dealt_add_dealtFrom (period workers worker start turns : Nat) :
    dealt period workers worker start + dealtFrom period workers start worker turns =
      dealt period workers worker (start + turns) :=
  (Nat.count_add _ start turns).symm

/-- Within a period the workers take turns. -/
theorem dealt_short (isWorker : worker < workers) (short : turns ≤ period) :
    dealt period workers worker turns =
      turns / workers + extra worker (turns % workers) := by
  have sameTurns : dealt period workers worker turns =
      turns.count (· ≡ worker [MOD workers]) := by
    rw [dealt, Nat.count_eq_card_filter_range, Nat.count_eq_card_filter_range]
    congr 1
    apply Finset.filter_congr
    intro turn inRange
    have before := Finset.mem_range.mp inRange
    rw [Nat.ModEq, Nat.mod_eq_of_lt isWorker, Nat.mod_eq_of_lt (Nat.lt_of_lt_of_le before short)]
  rw [sameTurns, Nat.count_modEq_card turns (Nat.zero_lt_of_lt isWorker),
    Nat.mod_eq_of_lt isWorker, extra]

/-- All periods are alike. -/
theorem dealt_periods (period workers worker cycles rest : Nat) :
    dealt period workers worker (cycles * period + rest) =
      cycles * dealt period workers worker period + dealt period workers worker rest := by
  induction cycles with
  | zero => simp
  | succ cycles inductionHypothesis =>
    have split : (cycles + 1) * period + rest = period + (cycles * period + rest) := by
      rw [Nat.succ_mul]
      omega
    have again : dealtFrom period workers period worker (cycles * period + rest) =
        dealt period workers worker (cycles * period + rest) := by
      simp [dealtFrom, dealt]
    rw [split, ← dealt_add_dealtFrom, again, inductionHypothesis, Nat.succ_mul]
    omega

/-- A share by the number of the periods and what is dealt in the last one. -/
theorem dealt_eq (positive : 0 < period) (isWorker : worker < workers) (turns : Nat) :
    dealt period workers worker turns =
      turns / period * (period / workers + extra worker (period % workers)) +
        (turns % period / workers + extra worker (turns % period % workers)) := by
  have cut := dealt_periods period workers worker (turns / period) (turns % period)
  rw [Nat.div_add_mod'] at cut
  rw [cut, dealt_short isWorker le_rfl,
    dealt_short isWorker (Nat.mod_lt turns positive).le]

/-- The shares of two workers drift apart by at most one with every period. -/
theorem dealtFrom_le (isLeft : left < workers) (isRight : right < workers)
    (inPeriod : start < period) (turns : Nat) :
    dealtFrom period workers start left turns ≤
      dealtFrom period workers start right turns + (start + turns) / period + 1 := by
  have positive := Nat.zero_lt_of_lt inPeriod
  have ofLeft := dealt_add_dealtFrom period workers left start turns
  have ofRight := dealt_add_dealtFrom period workers right start turns
  rw [dealt_eq positive isLeft, dealt_eq positive isLeft] at ofLeft
  rw [dealt_eq positive isRight, dealt_eq positive isRight] at ofRight
  simp only [Nat.div_eq_of_lt inPeriod, Nat.mod_eq_of_lt inPeriod, Nat.zero_mul,
    Nat.zero_add] at ofLeft ofRight
  have drift : (start + turns) / period * (period / workers + extra left (period % workers)) ≤
      (start + turns) / period * (period / workers + extra right (period % workers)) +
        (start + turns) / period := by
    have few := extra_le left (period % workers)
    rw [← Nat.mul_succ]
    exact Nat.mul_le_mul_left _ (by omega)
  have balance := extra_balance left right ((start + turns) % period % workers) (start % workers)
  omega

/-- When rounds are cut off at the end of a period, the first worker gets one turn more than the last
    one with each. -/
theorem dealtFrom_uneven (positive : 0 < period) (some : 0 < workers)
    (partly : ¬workers ∣ period) :
    dealtFrom period workers 0 0 (2 * period) =
      dealtFrom period workers 0 (workers - 1) (2 * period) + 2 := by
  have first := dealt_add_dealtFrom period workers 0 0 (2 * period)
  have last := dealt_add_dealtFrom period workers (workers - 1) 0 (2 * period)
  have isLast : workers - 1 < workers := by omega
  rw [Nat.zero_add, dealt_eq positive some, dealt_eq positive some] at first
  rw [Nat.zero_add, dealt_eq positive isLast, dealt_eq positive isLast] at last
  have remainder : 0 < period % workers :=
    Nat.pos_of_ne_zero fun none => partly (Nat.dvd_of_mod_eq_zero none)
  have below : ¬workers - 1 < period % workers := by
    have small := Nat.mod_lt period some
    omega
  simp [extra, positive, remainder, below] at first last
  omega

/-- The shares stay together exactly if a period consists of whole rounds. -/
theorem dealtFrom_even_iff (positive : 0 < period) (some : 0 < workers) :
    (∀ start < period, ∀ turns, ∀ left < workers, ∀ right < workers,
      dealtFrom period workers start left turns ≤ dealtFrom period workers start right turns + 1) ↔
      workers ∣ period := by
  constructor
  · intro even
    by_contra partly
    have uneven := dealtFrom_uneven positive some partly
    have close := even 0 positive (2 * period) 0 some (workers - 1) (by omega)
    omega
  · intro whole start inPeriod turns left isLeft right isRight
    have ofLeft := dealt_add_dealtFrom period workers left start turns
    have ofRight := dealt_add_dealtFrom period workers right start turns
    rw [dealt_eq positive isLeft, dealt_eq positive isLeft] at ofLeft
    rw [dealt_eq positive isRight, dealt_eq positive isRight] at ofRight
    simp only [Nat.mod_eq_zero_of_dvd whole] at ofLeft ofRight
    have balance := extra_balance left right ((start + turns) % period % workers)
      (start % period % workers)
    have none : ∀ worker, extra worker 0 = 0 := fun worker => rfl
    rw [none] at ofLeft ofRight
    omega

/-- A worker whose index is not below the period never gets a turn. -/
theorem dealtFrom_beyond (positive : 0 < period) (beyond : period ≤ worker) (start turns : Nat) :
    dealtFrom period workers start worker turns = 0 := by
  rw [dealtFrom, Nat.count_eq_card_filter_range, Finset.card_eq_zero, Finset.filter_eq_empty_iff]
  intro turn _ here
  have small := Nat.mod_lt (start + turn) positive
  have smaller := Nat.mod_le ((start + turn) % period) workers
  omega

end GarudaCodec.Foundation.RoundRobin
