import Mathlib.Data.List.Basic

namespace StraceXv6.Data.Slots

open Option Function

/-! A table of slots as a finite map.  A slot is free or has a key and a value. -/

section

variable {Key Value : Type*} [DecidableEq Key]

def lookup (slots : List (Option (Key × Value))) (key : Key) : Option Value :=
  slots.findSome? fun slot => slot.bind fun entry =>
    if entry.1 = key then some entry.2 else none

def Distinct (slots : List (Option (Key × Value))) : Prop :=
  ∀ (i j : Nat) (key : Key) (value other : Value), slots[i]? = some (some (key, value)) →
    slots[j]? = some (some (key, other)) → i = j

omit [DecidableEq Key] in
theorem distinct_iff (slots : List (Option (Key × Value))) : Distinct slots ↔
    ∀ i < slots.length, ∀ j < slots.length,
      slots[i]?.join.map Prod.fst = slots[j]?.join.map Prod.fst →
        slots[i]?.join.isNone ∨ i = j := by
  constructor
  · intro distinct i _ j _ same
    cases here : slots[i]?.join with
    | none => exact .inl rfl
    | some entry =>
      cases there : slots[j]?.join with
      | none =>
        rw [here, there] at same
        cases same
      | some other =>
        rw [here, there, map_some, map_some, Option.some.injEq] at same
        refine .inr (distinct i j entry.1 entry.2 other.2 ?_ ?_)
        · exact join_eq_some_iff.mp here
        · rw [same]
          exact join_eq_some_iff.mp there
  · intro apart i j key value other here there
    have inside := (List.getElem?_eq_some_iff.mp here).1
    have inside' := (List.getElem?_eq_some_iff.mp there).1
    rcases apart i inside j inside' (by rw [here, there]; rfl) with free | same
    · rw [here] at free
      cases free
    · exact same

instance (slots : List (Option (Key × Value))) : Decidable (Distinct slots) :=
  decidable_of_iff _ (distinct_iff slots).symm

structure Written (k : Nat) (slot : Option (Key × Value))
    (before after : List (Option (Key × Value))) : Prop where
  here : after[k]? = some slot
  elsewhere : ∀ i : Nat, i ≠ k → after[i]? = before[i]?

variable {slots slots' : List (Option (Key × Value))} {k : Nat} {key : Key} {value : Value}

theorem exists_of_lookup (found : lookup slots key = some value) :
    ∃ i : Nat, slots[i]? = some (some (key, value)) := by
  obtain ⟨slot, member, holds⟩ := List.exists_of_findSome?_eq_some found
  obtain ⟨entry, rfl, same⟩ := bind_eq_some_iff.mp holds
  obtain ⟨i, here⟩ := List.getElem?_of_mem member
  split at same
  next equal =>
    refine ⟨i, ?_⟩
    rw [here, ← equal, ← Option.some.inj same]
  next => cases same

theorem lookup_eq_none : lookup slots key = none ↔
    ∀ (i : Nat) (value : Value), slots[i]? ≠ some (some (key, value)) := by
  constructor
  · intro missing i value here
    have none := List.findSome?_eq_none_iff.mp missing _ (List.mem_of_getElem? here)
    simp at none
  · intro absent
    cases found : lookup slots key with
    | none => rfl
    | some value =>
      obtain ⟨i, here⟩ := exists_of_lookup found
      exact absurd here (absent i value)

theorem lookup_eq_some (distinct : Distinct slots) : lookup slots key = some value ↔
    ∃ i : Nat, slots[i]? = some (some (key, value)) := by
  refine ⟨exists_of_lookup, ?_⟩
  rintro ⟨i, here⟩
  cases found : lookup slots key with
  | none => exact absurd here (lookup_eq_none.mp found i value)
  | some other =>
    obtain ⟨j, there⟩ := exists_of_lookup found
    obtain rfl := distinct i j key value other here there
    rw [here] at there
    simp only [Option.some.injEq, Prod.mk.injEq, true_and] at there
    rw [there]

theorem Written.insert (written : Written k (some (key, value)) slots slots')
    (distinct : Distinct slots) (free : ∀ entry, slots[k]? ≠ some (some entry))
    (absent : lookup slots key = none) :
    Distinct slots' ∧ lookup slots' = update (lookup slots) key (some value) := by
  have missing := lookup_eq_none.mp absent
  have after : ∀ (i : Nat) (key' : Key) (value' : Value), slots'[i]? = some (some (key', value')) ↔
      i = k ∧ key' = key ∧ value' = value ∨ slots[i]? = some (some (key', value')) := by
    intro i key' value'
    by_cases same : i = k
    · subst same
      rw [written.here]
      simp only [Option.some.injEq, Prod.mk.injEq, true_and]
      constructor
      · rintro ⟨rfl, rfl⟩
        exact .inl ⟨rfl, rfl⟩
      · rintro (⟨rfl, rfl⟩ | taken)
        · exact ⟨rfl, rfl⟩
        · exact absurd taken (free _)
    · rw [written.elsewhere i same]
      simp only [same, false_and, false_or]
  have distinct' : Distinct slots' := by
    intro i j key' first second here there
    rcases (after _ _ _).mp here with ⟨rfl, rfl, _⟩ | old
    · rcases (after _ _ _).mp there with ⟨rfl, _⟩ | old'
      · rfl
      · exact absurd old' (missing j second)
    · rcases (after _ _ _).mp there with ⟨rfl, rfl, _⟩ | old'
      · exact absurd old (missing i first)
      · exact distinct i j key' first second old old'
  refine ⟨distinct', ?_⟩
  funext key'
  by_cases same : key' = key
  · subst same
    rw [update_self, lookup_eq_some distinct']
    exact ⟨k, written.here⟩
  · rw [update_of_ne same]
    apply Option.ext
    intro value'
    rw [lookup_eq_some distinct', lookup_eq_some distinct]
    simp only [after, same, false_and, and_false, false_or]

theorem Written.erase (written : Written k none slots slots') (distinct : Distinct slots)
    (held : slots[k]? = some (some (key, value))) :
    Distinct slots' ∧ lookup slots' = update (lookup slots) key none := by
  have after : ∀ (i : Nat) (key' : Key) (value' : Value), slots'[i]? = some (some (key', value')) ↔
      i ≠ k ∧ slots[i]? = some (some (key', value')) := by
    intro i key' value'
    by_cases same : i = k
    · subst same
      rw [written.here]
      simp
    · rw [written.elsewhere i same]
      simp only [ne_eq, same, not_false_eq_true, true_and]
  have distinct' : Distinct slots' := by
    intro i j key' first second here there
    exact distinct i j key' first second ((after _ _ _).mp here).2 ((after _ _ _).mp there).2
  refine ⟨distinct', ?_⟩
  funext key'
  by_cases same : key' = key
  · subst same
    rw [update_self, lookup_eq_none]
    intro i value' here
    obtain ⟨other, old⟩ := (after _ _ _).mp here
    exact other (distinct i k key' value' value old held)
  · rw [update_of_ne same]
    apply Option.ext
    intro value'
    rw [lookup_eq_some distinct', lookup_eq_some distinct]
    constructor
    · rintro ⟨i, here⟩
      exact ⟨i, ((after _ _ _).mp here).2⟩
    · rintro ⟨i, here⟩
      refine ⟨i, (after _ _ _).mpr ⟨?_, here⟩⟩
      rintro rfl
      rw [held] at here
      simp only [Option.some.injEq, Prod.mk.injEq] at here
      exact same here.1.symm

end

end StraceXv6.Data.Slots
