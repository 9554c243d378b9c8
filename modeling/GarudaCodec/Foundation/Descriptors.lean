import Mathlib.Data.List.Nodup
import Mathlib.Data.List.Perm.Basic
import Mathlib.Logic.Function.Basic

/-! # Descriptors of a process

A table says what each open descriptor of a process refers to; a resource is open as long as some
descriptor refers to it.  `Owns base keys table` is the account of a process that has started with
the table `base`: it has opened `keys` since then, holds each of them once, and has left everything
else as it was.
-/

namespace GarudaCodec.Foundation.Descriptors

variable {κ ρ : Type*}

abbrev Table (κ ρ : Type*) := κ → Option ρ

def IsOpen (table : Table κ ρ) (resource : ρ) : Prop :=
  ∃ key, table key = some resource

variable {table base : Table κ ρ} {key other : κ} {keys : List κ} {resource : ρ}

/-- The descriptors a process has opened and not closed. -/
structure Owns (base : Table κ ρ) (keys : List κ) (table : Table κ ρ) : Prop where
  distinct : keys.Nodup
  unused : ∀ key ∈ keys, base key = none
  refers : ∀ key ∈ keys, ∃ resource, table key = some resource
  others : ∀ key, key ∉ keys → table key = base key

namespace Owns

theorem nothing (base : Table κ ρ) : Owns base [] base where
  distinct := List.nodup_nil
  unused := by simp
  refers := by simp
  others := fun _ _ => rfl

theorem eq_base (owns : Owns base [] table) : table = base :=
  funext fun key => owns.others key List.not_mem_nil

/-- The order in which descriptors are held does not matter. -/
theorem perm {reordered : List κ} (owns : Owns base keys table) (same : keys.Perm reordered) :
    Owns base reordered table where
  distinct := same.nodup_iff.mp owns.distinct
  unused := fun key member => owns.unused key (same.mem_iff.mpr member)
  refers := fun key member => owns.refers key (same.mem_iff.mpr member)
  others := fun key outside => owns.others key fun member => outside (same.mem_iff.mp member)

theorem not_mem (owns : Owns base keys table) (fresh : table key = none) : key ∉ keys := by
  intro member
  obtain ⟨resource, refers⟩ := owns.refers key member
  rw [fresh] at refers
  cases refers

/-- A resource is open if it has been from the start or is one of those held. -/
theorem isOpen_iff (owns : Owns base keys table) :
    IsOpen table resource ↔ (∃ key ∈ keys, table key = some resource) ∨ IsOpen base resource := by
  constructor
  · intro isOpen
    obtain ⟨key, refers⟩ := isOpen
    by_cases held : key ∈ keys
    · exact Or.inl ⟨key, held, refers⟩
    · exact Or.inr ⟨key, owns.others key held ▸ refers⟩
  · intro held
    cases held with
    | inl held =>
      obtain ⟨key, -, refers⟩ := held
      exact ⟨key, refers⟩
    | inr before =>
      obtain ⟨key, refers⟩ := before
      have outside : key ∉ keys := by
        intro member
        rw [owns.unused key member] at refers
        cases refers
      exact ⟨key, (owns.others key outside).trans refers⟩

end Owns

/-! ## Opening and closing -/

variable [DecidableEq κ]

/-- A call that returns a new descriptor. -/
def Table.insert (table : Table κ ρ) (key : κ) (resource : ρ) : Table κ ρ :=
  Function.update table key (some resource)

/-- Closing what is not open changes nothing. -/
def Table.close (table : Table κ ρ) (key : κ) : Table κ ρ :=
  Function.update table key none

def Table.closeAll (table : Table κ ρ) (keys : List κ) : Table κ ρ :=
  keys.foldl Table.close table

@[simp] theorem Table.insert_self : table.insert key resource key = some resource :=
  Function.update_self ..

@[simp] theorem Table.close_self : table.close key key = none :=
  Function.update_self ..

theorem Table.insert_of_ne (different : other ≠ key) :
    table.insert key resource other = table other :=
  Function.update_of_ne different _ _

theorem Table.close_of_ne (different : other ≠ key) : table.close key other = table other :=
  Function.update_of_ne different _ _

theorem Table.close_of_none (unused : table key = none) : table.close key = table := by
  rw [Table.close, ← unused, Function.update_eq_self]

theorem Table.close_insert (unused : table key = none) :
    (table.insert key resource).close key = table := by
  rw [insert, close, Function.update_idem, ← unused, Function.update_eq_self]

theorem Table.isOpen_of_insert {opened : ρ} (isOpen : IsOpen (table.insert key opened) resource) :
    resource = opened ∨ IsOpen table resource := by
  obtain ⟨other, refers⟩ := isOpen
  by_cases same : other = key
  · rw [same, insert_self] at refers
    exact Or.inl (Option.some.inj refers).symm
  · rw [insert_of_ne same] at refers
    exact Or.inr ⟨other, refers⟩

@[simp] theorem Table.closeAll_nil : table.closeAll [] = table := rfl

@[simp] theorem Table.closeAll_cons :
    table.closeAll (key :: keys) = (table.close key).closeAll keys := rfl

theorem Table.closeAll_of_not_mem (outside : other ∉ keys) :
    table.closeAll keys other = table other := by
  induction keys generalizing table with
  | nil => rfl
  | cons key keys inductionHypothesis =>
    obtain ⟨different, later⟩ := List.ne_and_not_mem_of_not_mem_cons outside
    rw [closeAll_cons, inductionHypothesis later, close_of_ne different]

namespace Owns

theorem insert (owns : Owns base keys table) (fresh : table key = none) (resource : ρ) :
    Owns base (key :: keys) (table.insert key resource) where
  distinct := List.nodup_cons.mpr ⟨owns.not_mem fresh, owns.distinct⟩
  unused := by
    refine List.forall_mem_cons.mpr ⟨?_, owns.unused⟩
    rw [← owns.others key (owns.not_mem fresh), fresh]
  refers := by
    refine List.forall_mem_cons.mpr ⟨⟨resource, Table.insert_self⟩, fun other member => ?_⟩
    have different : other ≠ key := fun same => owns.not_mem fresh (same ▸ member)
    rw [Table.insert_of_ne different]
    exact owns.refers other member
  others := by
    intro other outside
    obtain ⟨different, later⟩ := List.ne_and_not_mem_of_not_mem_cons outside
    rw [Table.insert_of_ne different, owns.others other later]

theorem close (owns : Owns base (key :: keys) table) : Owns base keys (table.close key) where
  distinct := (List.nodup_cons.mp owns.distinct).2
  unused := fun other member => owns.unused other (List.mem_cons_of_mem key member)
  refers := by
    intro other member
    have different : other ≠ key := fun same =>
      (List.nodup_cons.mp owns.distinct).1 (same ▸ member)
    rw [Table.close_of_ne different]
    exact owns.refers other (List.mem_cons_of_mem key member)
  others := by
    intro other outside
    by_cases same : other = key
    · rw [same, Table.close_self, owns.unused key List.mem_cons_self]
    · rw [Table.close_of_ne same]
      exact owns.others other fun member => outside ((List.mem_cons.mp member).resolve_left same)

theorem closeAll {dropped : List κ} (owns : Owns base (dropped ++ keys) table) :
    Owns base keys (table.closeAll dropped) := by
  induction dropped generalizing table with
  | nil => exact owns
  | cons key dropped inductionHypothesis => exact inductionHypothesis owns.close

end Owns

end GarudaCodec.Foundation.Descriptors
