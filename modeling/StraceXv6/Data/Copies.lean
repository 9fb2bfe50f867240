import Mathlib.Data.List.Basic

namespace StraceXv6.Data

open List Function

/-! Copies made one after another inside one store.  Each of them reads what the earlier
ones have left there. -/

section

variable {K V : Type*} [DecidableEq K]

/-- A pair names the key that is written and the key that is read. -/
def copies (store : K → V) : List (K × K) → K → V
  | [] => store
  | (target, source) :: rest => copies (update store target (store source)) rest

variable (store : K → V)

theorem copies_append (first second : List (K × K)) :
    copies store (first ++ second) = copies (copies store first) second := by
  induction first generalizing store with
  | nil => rfl
  | cons pair rest induction => exact induction _

variable {pairs : List (K × K)}

theorem copies_of_untouched {key : K} (untouched : ∀ pair ∈ pairs, pair.1 ≠ key) :
    copies store pairs key = store key := by
  induction pairs generalizing store with
  | nil => rfl
  | cons pair rest induction =>
    rw [copies, induction _ fun later member => untouched later (mem_cons_of_mem _ member)]
    exact update_of_ne (untouched pair mem_cons_self).symm _ _

/-- What no later copy writes is what the copy itself has read. -/
theorem copies_split {first rest : List (K × K)} {target source : K}
    (last : ∀ pair ∈ rest, pair.1 ≠ target) :
    copies store (first ++ (target, source) :: rest) target = copies store first source := by
  rw [copies_append, copies, copies_of_untouched _ last, update_self]

theorem copies_of_mem
    (apart : pairs.Pairwise fun earlier later => earlier.1 ≠ later.2 ∧ earlier.1 ≠ later.1)
    {pair : K × K} (member : pair ∈ pairs) : copies store pairs pair.1 = store pair.2 := by
  obtain ⟨first, rest, rfl⟩ := append_of_mem member
  obtain ⟨_, later, earlier⟩ := pairwise_append.mp apart
  have last : ∀ other ∈ rest, other.1 ≠ pair.1 := by
    intro other among
    exact ((pairwise_cons.mp later).1 other among).2.symm
  have fresh : ∀ other ∈ first, other.1 ≠ pair.2 := by
    intro other among
    exact (earlier other among pair mem_cons_self).1
  exact (copies_split store last).trans (copies_of_untouched store fresh)

end

end StraceXv6.Data
