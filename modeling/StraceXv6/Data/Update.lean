import Mathlib.Logic.Function.Basic

namespace StraceXv6.Data

open Function

section

variable {ι A B : Type*} [DecidableEq ι] {f : ι → A} {i j : ι} {a b : A}

theorem of_update (after : update f i a j = b) : j = i ∧ a = b ∨ j ≠ i ∧ f j = b := by
  by_cases same : j = i
  · rw [same, update_self] at after
    exact .inl ⟨same, after⟩
  · rw [update_of_ne same] at after
    exact .inr ⟨same, after⟩

theorem of_update_ne (after : update f i a j = b) (other : a ≠ b) : j ≠ i ∧ f j = b :=
  (of_update after).resolve_left fun new => other new.2

theorem apply_update_eq (part : A → B) (same : part a = part (f i)) (j : ι) :
    part (update f i a j) = part (f j) := by
  by_cases here : j = i
  · rw [here, update_self, same]
  · rw [update_of_ne here]

end

end StraceXv6.Data
