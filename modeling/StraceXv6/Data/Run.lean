import Mathlib.Data.List.Basic
import StraceXv6.Data.Numerals

namespace StraceXv6.Data

/-! Runs of a machine whose steps are partial functions of a label. -/

section

variable {State Label : Type*} (step : State → Label → Option State)

/-- Perform the labels in order; a label that is not enabled stops the run. -/
def run : State → List Label → Option State
  | state, [] => some state
  | state, label :: rest => (step state label).bind fun next => run next rest

/-- Every step the labels perform meets the condition in the state it starts
from. -/
def Conforms (condition : State → Label → Prop) : State → List Label → Prop
  | _, [] => True
  | state, label :: rest =>
    condition state label ∧
      ∀ next, step state label = some next → Conforms condition next rest

variable {step}

theorem of_guard {enabled : Prop} [Decidable enabled] {state next : State}
    (stepped : (if enabled then some state else none) = some next) : enabled ∧ state = next := by
  split at stepped
  next holds => exact ⟨holds, Option.some.inj stepped⟩
  next => cases stepped

variable {finish start : State} {condition : State → Label → Prop} {labels : List Label}

theorem run_cons_eq_some {label : Label} {rest : List Label} :
    run step start (label :: rest) = some finish ↔
      ∃ next, step start label = some next ∧ run step next rest = some finish := by
  simp [run, Option.bind_eq_some_iff]

theorem run_append (start : State) (first second : List Label) :
    run step start (first ++ second) =
      (run step start first).bind fun middle => run step middle second := by
  induction first generalizing start with
  | nil => rfl
  | cons label rest induction =>
    simp only [List.cons_append, run]
    cases step start label with
    | none => rfl
    | some next => exact induction next

instance decidableConforms (condition : State → Label → Prop)
    [∀ state label, Decidable (condition state label)] :
    ∀ state labels, Decidable (Conforms step condition state labels)
  | _, [] => .isTrue trivial
  | state, label :: rest =>
    match stepped : step state label with
    | none =>
      decidable_of_iff (condition state label)
        ⟨fun meets => ⟨meets, by simp [stepped]⟩, And.left⟩
    | some next =>
      have := decidableConforms condition next rest
      decidable_of_iff
        (condition state label ∧ Conforms step condition next rest)
        (by simp [Conforms, stepped])

theorem run_invariant (invariant : State → Prop)
    (preserved : ∀ state label next, invariant state → condition state label →
      step state label = some next → invariant next) (initially : invariant start)
    (conforms : Conforms step condition start labels)
    (reached : run step start labels = some finish) : invariant finish := by
  induction labels generalizing start with
  | nil => exact Option.some.inj reached ▸ initially
  | cons label rest induction =>
    obtain ⟨next, stepped, remaining⟩ := run_cons_eq_some.mp reached
    exact induction (preserved start label next initially conforms.1 stepped)
      (conforms.2 next stepped) remaining

theorem conforms_of_forall (always : ∀ label ∈ labels, ∀ state, condition state label)
    (start : State) : Conforms step condition start labels := by
  induction labels generalizing start with
  | nil => trivial
  | cons label rest induction =>
    refine ⟨always label List.mem_cons_self start, fun next _ => induction ?_ next⟩
    intro later member
    exact always later (List.mem_cons_of_mem _ member)

theorem run_preserves (invariant : State → Prop) (preserved : ∀ state label next, invariant state →
      step state label = some next → invariant next) (initially : invariant start)
    (reached : run step start labels = some finish) : invariant finish := by
  have conforms : Conforms step (fun _ _ => True) start labels :=
    conforms_of_forall (fun _ _ _ => trivial) start
  refine run_invariant invariant ?_ initially conforms reached
  intro state label next before _ stepped
  exact preserved state label next before stepped

end

end StraceXv6.Data
