import StraceXv6.Data.Tally

namespace StraceXv6.Data

open Function

/-! Reference counts.  Resources are counted; references to them stand in slots, or are held
by whoever is between two operations. -/

section

variable {R ι : Type*} [DecidableEq R] [Fintype ι]

def points (r : R) (slot : Option R) : Nat := if slot = some r then 1 else 0

@[simp] theorem points_none (r : R) : points r none = 0 := rfl

@[simp] theorem points_self (r : R) : points r (some r) = 1 := if_pos rfl

variable {r : R}

theorem points_of_ne {s : R} (other : s ≠ r) : points r (some s) = 0 :=
  if_neg fun same => other (Option.some.inj same)

theorem eq_some_of_points_pos {slot : Option R} (positive : 0 < points r slot) : slot = some r := by
  unfold points at positive
  split at positive
  next same => exact same
  next => exact absurd positive (Nat.lt_irrefl 0)

/-- Each count is the number of the slots that refer to the resource and the references
that are held. -/
def Balanced (count : R → Nat) (slots : ι → Option R) (held : R → Int) : Prop :=
  ∀ r, (count r : Int) = tally (points r) slots + held r

namespace Balanced

variable {count : R → Nat} {slots : ι → Option R} {held : R → Int}

theorem hold (balanced : Balanced count slots held) {held' : R → Int}
    (same : ∀ r, held' r = held r) : Balanced count slots held' := by
  intro r
  rw [same r]
  exact balanced r

theorem raise (balanced : Balanced count slots held) (r : R) :
    Balanced (update count r (count r + 1)) slots
      (fun s => held s + points s (some r)) := by
  intro s
  beta_reduce
  have before := balanced s
  by_cases same : s = r
  · subst same
    rw [update_self, points_self]
    omega
  · rw [update_of_ne same, points_of_ne (Ne.symm same)]
    omega

variable {r : R}

theorem lower (balanced : Balanced count slots held) (positive : 0 < count r) :
    Balanced (update count r (count r - 1)) slots
      (fun s => held s - points s (some r)) := by
  intro s
  beta_reduce
  have before := balanced s
  by_cases same : s = r
  · subst same
    rw [update_self, points_self]
    omega
  · rw [update_of_ne same, points_of_ne (Ne.symm same)]
    omega

theorem store [DecidableEq ι] (balanced : Balanced count slots held) (i : ι)
    (slot : Option R) :
    Balanced count (update slots i slot)
      (fun r => held r + points r (slots i) - points r slot) := by
  intro r
  beta_reduce
  have before := balanced r
  have moved := tally_update (points r) slots i slot
  omega

theorem move [DecidableEq ι] (balanced : Balanced count slots held) {target source : ι}
    (other : source ≠ target) :
    Balanced count (update (update slots target (slots source)) source none)
      fun r => held r + points r (slots target) := by
  refine ((balanced.store target (slots source)).store source none).hold fun r => ?_
  rw [update_of_ne other, points_none]
  omega

theorem positive_of_held (balanced : Balanced count slots held) (holds : 0 < held r) :
    0 < count r := by
  have before := balanced r
  omega

theorem positive_of_slot (balanced : Balanced count slots held) {i : ι} (holds : 0 ≤ held r)
    (refers : slots i = some r) : 0 < count r := by
  have before := balanced r
  have one := weight_le_tally (points r) slots i
  rw [refers, points_self] at one
  omega

theorem exists_slot (balanced : Balanced count slots held) (positive : 0 < count r)
    (nothing : held r = 0) : ∃ i, slots i = some r := by
  have before := balanced r
  have referred : 0 < tally (points r) slots := by omega
  obtain ⟨i, refers⟩ := exists_weight_pos referred
  exact ⟨i, eq_some_of_points_pos refers⟩

end Balanced

end

end StraceXv6.Data
