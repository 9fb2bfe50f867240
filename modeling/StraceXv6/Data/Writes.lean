import Mathlib.Data.List.Nodup

namespace StraceXv6.Data

open List

/-! A store and the lists of writes made to it, in the order they are made. -/

section

variable {K V : Type*} [DecidableEq K]

def writes (store : K → V) (made : List (K × V)) : K → V :=
  made.foldl (fun store write => Function.update store write.1 write.2) store

theorem writes_append (store : K → V) (first second : List (K × V)) :
    writes store (first ++ second) = writes (writes store first) second :=
  foldl_append

theorem writes_cons (store : K → V) (write : K × V) (rest : List (K × V)) :
    writes store (write :: rest) =
      writes (Function.update store write.1 write.2) rest := rfl

theorem writes_concat (store : K → V) (made : List (K × V)) (write : K × V) :
    writes store (made ++ [write]) =
      Function.update (writes store made) write.1 write.2 :=
  writes_append store made [write]

variable {made : List (K × V)}

theorem writes_of_untouched {key : K} (untouched : ∀ write ∈ made, write.1 ≠ key) (store : K → V) :
    writes store made key = store key := by
  induction made generalizing store with
  | nil => rfl
  | cons write rest induction =>
    rw [writes_cons, induction fun other member =>
      untouched other (mem_cons_of_mem _ member)]
    exact Function.update_of_ne (untouched write mem_cons_self).symm _ _

theorem writes_of_mem (once : (made.map Prod.fst).Nodup) {write : K × V} (member : write ∈ made)
    (store : K → V) : writes store made write.1 = write.2 := by
  induction made generalizing store with
  | nil => exact absurd member not_mem_nil
  | cons head rest induction =>
    rw [map_cons, nodup_cons] at once
    rw [writes_cons]
    cases mem_cons.mp member with
    | inl same =>
      subst same
      rw [writes_of_untouched]
      · exact Function.update_self ..
      · intro other inside equal
        exact once.1 (equal ▸ mem_map_of_mem inside)
    | inr inside => exact induction once.2 inside _

end

end StraceXv6.Data
