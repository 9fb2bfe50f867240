import Mathlib.Data.List.Basic
import StraceXv6.Data.Numerals

namespace StraceXv6.Data

/-! Commands over a state that end in a value or in a failure, and the rules for
what holds after them. -/

abbrev Command (State Failure : Type) : Type → Type := StateT State (Except Failure)

namespace Command

section

variable {State Failure A B : Type}

/-- Performed in `s`, the command returns with `after`, or it fails with `fails`. -/
def Ensures (command : Command State Failure A) (s : State)
    (after : A → State → Prop) (fails : Failure → Prop) : Prop :=
  match command s with
  | .ok (value, next) => after value next
  | .error failure => fails failure

variable {after : A → State → Prop} {fails : Failure → Prop} {s : State}

@[simp] theorem ensures_pure (value : A) :
    Ensures (pure value : Command State Failure A) s after fails ↔ after value s :=
  Iff.rfl

@[simp] theorem ensures_get {after : State → State → Prop} :
    Ensures (get : Command State Failure State) s after fails ↔ after s s :=
  Iff.rfl

@[simp] theorem ensures_modify (change : State → State) {after : PUnit → State → Prop} :
    Ensures (modify change : Command State Failure PUnit) s after fails ↔
      after ⟨⟩ (change s) :=
  Iff.rfl

@[simp] theorem ensures_throw (failure : Failure) :
    Ensures (throw failure : Command State Failure A) s after fails ↔ fails failure :=
  Iff.rfl

@[simp] theorem ensures_bind (first : Command State Failure B)
    (next : B → Command State Failure A) :
    Ensures (first >>= next) s after fails ↔
      Ensures first s (fun value s => Ensures (next value) s after fails) fails := by
  simp only [Ensures, bind, StateT.bind, Except.bind]
  cases first s with
  | error failure | ok result => rfl

theorem ensures_trivial (command : Command State Failure A) (s : State) :
    Ensures command s (fun _ _ => True) fun _ => True := by
  unfold Ensures
  cases command s with
  | error failure | ok result => trivial

variable {first : Command State Failure B} {next : B → Command State Failure A}
  {after' : A → State → Prop} {command : Command State Failure A} {fails' : Failure → Prop}
  {middle : B → State → Prop}

theorem ensures_bind_of_ok {value : B} {middle : State} (returned : first s = .ok (value, middle)) :
    Ensures (first >>= next) s after fails ↔ Ensures (next value) middle after fails := by
  rw [ensures_bind, Ensures, returned]

theorem Ensures.mono (ensures : Ensures command s after fails)
    (returned : ∀ value next, after value next → after' value next)
    (failed : ∀ failure, fails failure → fails' failure) : Ensures command s after' fails' := by
  unfold Ensures at ensures ⊢
  cases performed : command s with
  | error failure =>
    rw [performed] at ensures
    exact failed failure ensures
  | ok result =>
    rw [performed] at ensures
    exact returned result.1 result.2 ensures

theorem Ensures.weaken (ensures : Ensures command s after fails)
    (returned : ∀ value next, after value next → after' value next) :
    Ensures command s after' fails :=
  ensures.mono returned fun _ failed => failed

theorem Ensures.and (ensures : Ensures command s after fails)
    (also : Ensures command s after' fails') :
    Ensures command s (fun value next => after value next ∧ after' value next)
      (fun failure => fails failure ∧ fails' failure) := by
  unfold Ensures at ensures also ⊢
  cases performed : command s with
  | error failure | ok result =>
    rw [performed] at ensures also
    exact ⟨ensures, also⟩

theorem Ensures.bind (ensures : Ensures first s middle fails')
    (continues : ∀ value s, middle value s → Ensures (next value) s after fails)
    (failed : ∀ failure, fails' failure → fails failure) : Ensures (first >>= next) s after fails :=
  (ensures_bind first next).mpr (ensures.mono continues failed)

theorem Ensures.seq (ensures : Ensures first s middle fails)
    (continues : ∀ value s, middle value s → Ensures (next value) s after fails) :
    Ensures (first >>= next) s after fails :=
  ensures.bind continues fun _ failed => failed

theorem Ensures.of_ok {value : A} {next : State} (ensures : Ensures command s after fails)
    (returned : command s = .ok (value, next)) : after value next := by
  simpa only [Ensures, returned] using ensures

theorem Ensures.of_error {failure : Failure} (ensures : Ensures command s after fails)
    (failed : command s = .error failure) : fails failure := by
  simpa only [Ensures, failed] using ensures

theorem Ensures.exists_ok (ensures : Ensures command s after fun _ => False) :
    ∃ value next, command s = .ok (value, next) ∧ after value next := by
  cases performed : command s with
  | error failure => exact (ensures.of_error performed).elim
  | ok result => exact ⟨result.1, result.2, rfl, ensures.of_ok performed⟩

theorem ensures_forM {each : B → Command State Failure PUnit}
    (invariant : List B → State → Prop)
    (preserved : ∀ item rest s, invariant (item :: rest) s →
      Ensures (each item) s (fun _ s => invariant rest s) fails)
    {items : List B} (initially : invariant items s) :
    Ensures (items.forM each) s (fun _ s => invariant [] s) fails := by
  induction items generalizing s with
  | nil => exact initially
  | cons item rest induction =>
    exact (preserved item rest s initially).seq fun _ _ kept => induction kept

def zoom {Rest : Type} (command : Command State Failure A) :
    Command (State × Rest) Failure A := fun s => do
  let (value, next) ← command s.1
  return (value, next, s.2)

theorem ensures_zoom {Rest : Type} (command : Command State Failure A) (s : State) (rest : Rest)
    {after : A → State × Rest → Prop} :
    Ensures (zoom command) (s, rest) after fails ↔
      Ensures command s (fun value next => after value (next, rest)) fails := by
  simp only [Ensures, zoom, bind, Except.bind]
  cases command s with
  | error failure | ok result => rfl

def within {Whole Failure' : Type} (read : Whole → State) (write : Whole → State → Whole)
    (wrap : Failure → Failure') (command : Command State Failure A) :
    Command Whole Failure' A := fun s =>
  match command (read s) with
  | .ok (value, next) => .ok (value, write s next)
  | .error failure => .error (wrap failure)

theorem ensures_within {Whole Failure' : Type} (read : Whole → State)
    (write : Whole → State → Whole) (wrap : Failure → Failure') (command : Command State Failure A)
    (s : Whole) {after : A → Whole → Prop} {fails : Failure' → Prop} :
    Ensures (within read write wrap command) s after fails ↔
      Ensures command (read s) (fun value next => after value (write s next))
        fun failure => fails (wrap failure) := by
  simp only [Ensures, within]
  cases command (read s) with
  | error failure | ok result => rfl

end

end Command

end StraceXv6.Data
