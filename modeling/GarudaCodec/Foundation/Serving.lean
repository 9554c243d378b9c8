import Mathlib.Data.List.Basic
import Mathlib.Data.List.Infix
import Mathlib.Logic.Relation

/-! # Serving connections one after another

A server takes its connections in turn and goes on to the next one when it is done with one, while
the other ends of all of them do what they like.  Each connection then runs as if there were no
others, the later ones without any step of the server (`Served`), and what the server puts out for
all of them comes connection after connection (`output_prefix`).
-/

namespace GarudaCodec.Foundation.Serving

variable {σ β : Type*}

/-- What can happen on a connection: a step of the server for it, or one of its other end. -/
structure Discipline (σ : Type*) where
  serve : σ → σ → Prop
  other : σ → σ → Prop
  done : σ → Prop
  done_other : ∀ {state state'}, done state → other state state' → done state'

/-- Some step on a connection. -/
def Discipline.any (discipline : Discipline σ) (state state' : σ) : Prop :=
  discipline.serve state state' ∨ discipline.other state state'

/-- All connections, and which of them is being served. -/
structure Service (σ : Type*) where
  connections : List σ
  serving : Nat

inductive Step (discipline : Discipline σ) : Service σ → Service σ → Prop
  | other {s idx state state'} :
      s.connections[idx]? = some state → discipline.other state state' →
      Step discipline s { s with connections := s.connections.set idx state' }
  | serve {s state state'} :
      s.connections[s.serving]? = some state → discipline.serve state state' →
      Step discipline s { s with connections := s.connections.set s.serving state' }
  | next {s state} :
      s.connections[s.serving]? = some state → discipline.done state →
      Step discipline s { s with serving := s.serving + 1 }

abbrev Reachable (discipline : Discipline σ) : Service σ → Service σ → Prop :=
  Relation.ReflTransGen (Step discipline)

/-- A run of a relation from the state with this index in one list to the one in the other. -/
def RunsAt (step : σ → σ → Prop) (starts states : List σ) (idx : Nat) : Prop :=
  ∀ start state, starts[idx]? = some start → states[idx]? = some state →
    Relation.ReflTransGen step start state

/-- What holds in every state of a run. -/
structure Served (discipline : Discipline σ) (starts : List σ) (s : Service σ) : Prop where
  length : s.connections.length = starts.length
  each : ∀ idx, RunsAt discipline.any starts s.connections idx
  later : ∀ idx, s.serving < idx → RunsAt discipline.other starts s.connections idx
  earlier : ∀ idx state, idx < s.serving → s.connections[idx]? = some state →
    discipline.done state

variable {discipline : Discipline σ} {starts : List σ} {s s' : Service σ}

theorem RunsAt.set {step allowed : σ → σ → Prop} {states : List σ} {idx changed : Nat}
    {state state' : σ} (runs : RunsAt step starts states idx)
    (present : states[changed]? = some state) (moves : allowed state state')
    (covers : idx = changed → ∀ {left right}, allowed left right → step left right) :
    RunsAt step starts (states.set changed state') idx := by
  intro start last isStart isLast
  by_cases same : idx = changed
  · subst same
    have inside := (List.getElem?_eq_some_iff.mp present).1
    rw [List.getElem?_set_self inside] at isLast
    cases isLast
    exact (runs start state isStart present).tail (covers rfl moves)
  · rw [List.getElem?_set_ne (Ne.symm same)] at isLast
    exact runs start last isStart isLast

theorem Served.start (discipline : Discipline σ) (starts : List σ) :
    Served discipline starts ⟨starts, 0⟩ where
  length := rfl
  each := fun idx start state isStart isState => by
    rw [isStart] at isState
    cases isState
    exact .refl
  later := fun idx _ start state isStart isState => by
    rw [isStart] at isState
    cases isState
    exact .refl
  earlier := fun idx state before => absurd before (Nat.not_lt_zero idx)

theorem Served.step (served : Served discipline starts s) (step : Step discipline s s') :
    Served discipline starts s' := by
  cases step with
  | @other changed state state' present moves =>
    exact
      { length := by simpa using served.length
        each := fun idx => (served.each idx).set present moves fun _ _ _ => Or.inr
        later := fun idx behind => (served.later idx behind).set present moves fun _ _ _ => id
        earlier := by
          intro idx last before isLast
          by_cases same : idx = changed
          · subst same
            have inside := (List.getElem?_eq_some_iff.mp present).1
            rw [List.getElem?_set_self inside] at isLast
            cases isLast
            exact discipline.done_other (served.earlier idx state before present) moves
          · rw [List.getElem?_set_ne (Ne.symm same)] at isLast
            exact served.earlier idx last before isLast }
  | @serve state state' present moves =>
    exact
      { length := by simpa using served.length
        each := fun idx => (served.each idx).set present moves fun _ _ _ => Or.inl
        later := fun idx behind => (served.later idx behind).set present moves
          fun same => absurd same (Nat.ne_of_gt behind)
        earlier := by
          intro idx last before isLast
          rw [List.getElem?_set_ne (Nat.ne_of_gt before)] at isLast
          exact served.earlier idx last before isLast }
  | next present done =>
    exact
      { served with
        later := fun idx behind => served.later idx (Nat.lt_of_succ_lt behind)
        earlier := by
          intro idx last before isLast
          cases Nat.lt_succ_iff_lt_or_eq.mp before with
          | inl earlier => exact served.earlier idx last earlier isLast
          | inr now =>
            rw [now, present] at isLast
            cases isLast
            exact done }

theorem served_of_reachable (reachable : Reachable discipline ⟨starts, 0⟩ s) :
    Served discipline starts s := by
  induction reachable with
  | refl => exact .start discipline starts
  | tail _ step inductionHypothesis => exact inductionHypothesis.step step

/-! ## What the server puts out -/

/-- What is put out for a connection is the server's doing, and nothing is taken back. -/
structure Discipline.Outputs (discipline : Discipline σ) (written : σ → List β) : Prop where
  serve : ∀ {state state'}, discipline.serve state state' → written state <+: written state'
  other : ∀ {state state'}, discipline.other state state' → written state' = written state

theorem Discipline.Outputs.run {written : σ → List β} (outputs : discipline.Outputs written)
    {state state' : σ} (run : Relation.ReflTransGen discipline.other state state') :
    written state' = written state := by
  induction run with
  | refl => rfl
  | tail _ step inductionHypothesis => rw [outputs.other step, inductionHypothesis]

/-- All output so far, connection after connection. -/
def Service.output (written : σ → List β) (s : Service σ) : List β :=
  s.connections.flatMap written

theorem flatMap_set {written : σ → List β} {states : List σ} {idx : Nat} {state state' : σ}
    (present : states[idx]? = some state) (same : written state' = written state) :
    (states.set idx state').flatMap written = states.flatMap written := by
  induction states generalizing idx with
  | nil => simp at present
  | cons first states inductionHypothesis =>
    cases idx with
    | zero =>
      obtain rfl : first = state := by simpa using present
      simp [same]
    | succ idx => simp [inductionHypothesis (by simpa using present)]

theorem flatMap_set_prefix {written : σ → List β} {states : List σ} {idx : Nat}
    {state state' : σ} (present : states[idx]? = some state)
    (grows : written state <+: written state')
    (nothing : ∀ later other, idx < later → states[later]? = some other → written other = []) :
    states.flatMap written <+: (states.set idx state').flatMap written := by
  induction states generalizing idx with
  | nil => simp at present
  | cons first states inductionHypothesis =>
    cases idx with
    | zero =>
      obtain rfl : first = state := by simpa using present
      have rest : states.flatMap written = [] := by
        apply List.flatMap_eq_nil_iff.mpr
        intro other member
        obtain ⟨later, inside, isOther⟩ := List.mem_iff_getElem.mp member
        exact nothing (later + 1) other (Nat.succ_pos later) (by simp [inside, isOther])
      simpa [rest] using grows
    | succ idx =>
      have later := inductionHypothesis (by simpa using present) fun later other behind isOther =>
        nothing (later + 1) other (Nat.succ_lt_succ behind) (by simpa using isOther)
      simpa using later

theorem Served.output_prefix {written : σ → List β} (outputs : discipline.Outputs written)
    (served : Served discipline starts s) (nothing : ∀ start ∈ starts, written start = [])
    (step : Step discipline s s') : s.output written <+: s'.output written := by
  cases step with
  | other present moves =>
    rw [Service.output, Service.output, flatMap_set present (outputs.other moves)]
  | serve present moves =>
    apply flatMap_set_prefix present (outputs.serve moves)
    intro idx state behind isState
    have inside := (List.getElem?_eq_some_iff.mp isState).1
    rw [served.length] at inside
    have isStart := List.getElem?_eq_getElem inside
    rw [outputs.run (served.later idx behind _ state isStart isState)]
    exact nothing _ (List.getElem_mem inside)
  | next => exact List.prefix_rfl

/-- The output only grows at its end, so that its order is the order in time. -/
theorem output_prefix {written : σ → List β} (outputs : discipline.Outputs written)
    (nothing : ∀ start ∈ starts, written start = []) (reachable : Reachable discipline ⟨starts, 0⟩ s)
    (later : Reachable discipline s s') : s.output written <+: s'.output written := by
  induction later with
  | refl => exact List.prefix_rfl
  | tail goesOn step inductionHypothesis =>
    have served := served_of_reachable (reachable.trans goesOn)
    exact inductionHypothesis.trans (served.output_prefix outputs nothing step)

/-! ## Serving to the end -/

theorem step_of_any {before after : List σ} {state state' : σ} (moves : discipline.any state state') :
    Step discipline ⟨before ++ state :: after, before.length⟩
      ⟨before ++ state' :: after, before.length⟩ := by
  have present : (before ++ state :: after)[before.length]? = some state := by simp
  have changed : (before ++ state :: after).set before.length state' =
      before ++ state' :: after := by simp
  cases moves with
  | inl serves =>
    have step := Step.serve (s := ⟨before ++ state :: after, before.length⟩) present serves
    simpa only [changed] using step
  | inr others =>
    have step := Step.other (s := ⟨before ++ state :: after, before.length⟩) present others
    simpa only [changed] using step

/-- Connections that can each be brought to an end alone can be served one after another. -/
theorem exists_run {starts ends : List σ}
    (runs : List.Forall₂ (Relation.ReflTransGen discipline.any) starts ends)
    (finished : ∀ state ∈ ends, discipline.done state) (before : List σ) :
    Reachable discipline ⟨before ++ starts, before.length⟩
      ⟨before ++ ends, before.length + ends.length⟩ := by
  induction runs generalizing before with
  | nil => exact .refl
  | @cons start last starts ends run runs inductionHypothesis =>
    have serving : Reachable discipline ⟨before ++ start :: starts, before.length⟩
        ⟨before ++ last :: starts, before.length⟩ :=
      run.lift (fun state => (⟨before ++ state :: starts, before.length⟩ : Service σ))
        fun _ _ => step_of_any
    have next : Step discipline ⟨before ++ last :: starts, before.length⟩
        ⟨before ++ last :: starts, before.length + 1⟩ :=
      .next (by simp) (finished last List.mem_cons_self)
    have later := inductionHypothesis (fun state member =>
      finished state (List.mem_cons_of_mem _ member)) (before ++ [last])
    simp only [List.append_assoc, List.singleton_append, List.length_append,
      List.length_singleton] at later
    rw [List.length_cons, Nat.add_comm ends.length 1, ← Nat.add_assoc]
    exact (serving.tail next).trans later

end GarudaCodec.Foundation.Serving
