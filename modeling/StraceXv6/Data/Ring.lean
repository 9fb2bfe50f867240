import Mathlib.Data.List.Basic
import Mathlib.Data.Nat.ModEq

namespace StraceXv6.Data

open List

/-! A ring of `size` slots that keeps the most recent values of a history. -/

variable {α : Type*} {size : Nat} [NeZero size]

/-- The slots are what is left of the history once each value has been written
to the slot its position selects. -/
structure RingHolds (history : List α) (slots : Fin size → Option α) : Prop where
  recent : ∀ position (bound : position < history.length),
    history.length ≤ position + size →
      slots (Fin.ofNat size position) = some (history.get ⟨position, bound⟩)
  vacant : ∀ slot : Fin size, history.length ≤ slot.val → slots slot = none

theorem ringHolds_nil : RingHolds ([] : List α) (fun _ : Fin size => none) where
  recent := fun _ bound => absurd bound (Nat.not_lt_zero _)
  vacant := fun _ _ => rfl

omit [NeZero size] in
private theorem mod_ne_of_window {early late : Nat} (before : early < late)
    (window : late < early + size) : early % size ≠ late % size := by
  intro equal
  have divides : size ∣ late - early :=
    (Nat.modEq_iff_dvd' before.le).mp equal
  have bound := Nat.le_of_dvd (by omega) divides
  omega

variable {history : List α} {slots : Fin size → Option α} {start stop : Nat}

theorem RingHolds.push (holds : RingHolds history slots) (value : α) :
    RingHolds (history ++ [value])
      (Function.update slots (Fin.ofNat size history.length) (some value)) where
  recent := by
    intro position bound window
    rw [length_append, length_singleton] at bound window
    by_cases newest : position = history.length
    · subst newest
      simp
    · have older : position < history.length := by omega
      have distinct : Fin.ofNat size position ≠ Fin.ofNat size history.length := by
        intro equal
        exact mod_ne_of_window older (by omega) (congrArg Fin.val equal)
      rw [Function.update_of_ne distinct, holds.recent position older (by omega)]
      simp [older]
  vacant := by
    intro slot above
    rw [length_append, length_singleton] at above
    have distinct : slot ≠ Fin.ofNat size history.length := by
      intro equal
      have value := congrArg Fin.val equal
      have small : history.length < size := by omega
      rw [Fin.val_ofNat, Nat.mod_eq_of_lt small] at value
      omega
    rw [Function.update_of_ne distinct]
    exact holds.vacant slot (by omega)

/-- The write cursor after `count` values when it is reset only just before the
write that follows a full turn. -/
def cursor (size count : Nat) : Nat :=
  if count = 0 then 0 else (count - 1) % size + 1

omit [NeZero size] in
@[simp] theorem cursor_zero : cursor size 0 = 0 := rfl

omit [NeZero size] in
@[simp] theorem cursor_succ (count : Nat) :
    cursor size (count + 1) = count % size + 1 := by
  simp [cursor]

theorem cursor_le (size count : Nat) [NeZero size] :
    cursor size count ≤ size := by
  cases count with
  | zero => exact Nat.zero_le _
  | succ count =>
    rw [cursor_succ]
    exact Nat.mod_lt _ (Nat.pos_of_neZero size)

theorem cursor_reset (size count : Nat) [NeZero size] :
    (if cursor size count % size = 0 then 0 else cursor size count) =
      count % size := by
  cases count with
  | zero => simp
  | succ count =>
    have below := Nat.mod_lt count (Nat.pos_of_neZero size)
    rw [cursor_succ, ← Nat.mod_add_mod count size 1]
    by_cases wraps : count % size + 1 = size
    · rw [wraps, Nat.mod_self, if_pos rfl]
    · rw [Nat.mod_eq_of_lt (show count % size + 1 < size by omega),
        if_neg (Nat.succ_ne_zero _)]

omit [NeZero size] in
theorem exists_turns (size count : Nat) :
    ∃ turns, count = cursor size count + size * turns := by
  cases count with
  | zero => exact ⟨0, rfl⟩
  | succ count =>
    refine ⟨count / size, ?_⟩
    rw [cursor_succ]
    have split := Nat.mod_add_div count size
    omega

def backward (size cursor : Nat) : List Nat :=
  (List.range cursor).map (cursor - 1 - ·) ++
    (List.range (size - cursor)).map (size - 1 - ·)

private theorem filterMap_range_getElem? (values : List α) (count : Nat) :
    (List.range count).filterMap (fun index => values[index]?) =
      values.take count := by
  induction count with
  | zero => simp
  | succ count induction =>
    rw [range_succ, filterMap_append, induction, take_add_one]
    cases element : values[count]? with
    | none | some value => simp [element]

private theorem slots_eq_of_turns (holds : RingHolds history slots) {slot age : Nat} (turns : Nat)
    (recent : age < size) (inside : slot < size)
    (position : history.length = slot + age + 1 + size * turns) :
    slots (Fin.ofNat size slot) = history.reverse[age]? := by
  have bound : history.length - 1 - age < history.length := by omega
  have residue : (history.length - 1 - age) % size = slot := by
    rw [show history.length - 1 - age = slot + size * turns by omega,
      Nat.add_mul_mod_self_left, Nat.mod_eq_of_lt inside]
  have same : Fin.ofNat size slot = Fin.ofNat size (history.length - 1 - age) := by
    apply Fin.ext
    rw [Fin.val_ofNat, Fin.val_ofNat, residue, Nat.mod_eq_of_lt inside]
  rw [same, holds.recent _ bound (by omega),
    List.getElem?_reverse (show age < history.length by omega),
    List.getElem?_eq_getElem bound]
  rfl

theorem RingHolds.filterMap_backward (holds : RingHolds history slots) :
    (backward size (cursor size history.length)).filterMap
        (fun slot => slots (Fin.ofNat size slot)) =
      history.reverse.take size := by
  obtain ⟨turns, position⟩ := exists_turns size history.length
  have bounded := cursor_le size history.length
  generalize cursor size history.length = here at position bounded
  have newer : ((List.range here).map (here - 1 - ·)).filterMap
      (fun slot => slots (Fin.ofNat size slot)) = history.reverse.take here := by
    rw [filterMap_map, ← filterMap_range_getElem?]
    apply filterMap_congr
    intro age member
    have small := mem_range.mp member
    change slots (Fin.ofNat size (here - 1 - age)) = _
    exact slots_eq_of_turns holds turns (by omega) (by omega) (by omega)
  have older : ((List.range (size - here)).map (size - 1 - ·)).filterMap
      (fun slot => slots (Fin.ofNat size slot)) =
        (history.reverse.drop here).take (size - here) := by
    rw [filterMap_map, ← filterMap_range_getElem?]
    apply filterMap_congr
    intro age member
    have small := mem_range.mp member
    change slots (Fin.ofNat size (size - 1 - age)) = _
    rw [List.getElem?_drop]
    cases turns with
    | zero =>
      have beyond : history.reverse.length ≤ here + age := by
        rw [length_reverse]
        omega
      rw [List.getElem?_eq_none beyond]
      apply holds.vacant
      rw [Fin.val_ofNat, Nat.mod_eq_of_lt (by omega)]
      omega
    | succ turns =>
      refine slots_eq_of_turns holds turns (by omega) (by omega) ?_
      rw [Nat.mul_succ] at position
      omega
  rw [backward, filterMap_append, newer, older, ← take_add,
    Nat.add_sub_cancel' bounded]

/-- The slots hold what has been put into a queue and not taken yet; there is room for
`size` values. -/
structure RingQueue (history : List α) (taken : Nat) (slots : Fin size → α) : Prop where
  put : taken ≤ history.length
  room : history.length ≤ taken + size
  pending : ∀ position (bound : position < history.length), taken ≤ position →
    slots (Fin.ofNat size position) = history.get ⟨position, bound⟩

namespace RingQueue

variable {history : List α} {taken : Nat} {slots : Fin size → α}

theorem nil (slots : Fin size → α) : RingQueue [] 0 slots where
  put := Nat.le_refl 0
  room := Nat.zero_le _
  pending := fun _ bound => absurd bound (Nat.not_lt_zero _)

theorem push (queue : RingQueue history taken slots) (free : history.length < taken + size)
    (value : α) :
    RingQueue (history ++ [value]) taken
      (Function.update slots (Fin.ofNat size history.length) value) where
  put := by
    have put := queue.put
    rw [length_append, length_singleton]
    omega
  room := by
    rw [length_append, length_singleton]
    omega
  pending := by
    intro position bound later
    rw [length_append, length_singleton] at bound
    by_cases newest : position = history.length
    · subst newest
      simp
    · have older : position < history.length := by omega
      have distinct : Fin.ofNat size position ≠ Fin.ofNat size history.length := by
        intro equal
        exact mod_ne_of_window older (by omega) (congrArg Fin.val equal)
      rw [Function.update_of_ne distinct, queue.pending position older later]
      simp [older]

theorem pop (queue : RingQueue history taken slots) (more : taken < history.length) :
    RingQueue history (taken + 1) slots where
  put := more
  room := by
    have room := queue.room
    omega
  pending := fun position bound later => queue.pending position bound (by omega)

theorem unpush {value : α} (queue : RingQueue (history ++ [value]) taken slots)
    (kept : taken ≤ history.length) : RingQueue history taken slots where
  put := kept
  room := by
    have room := queue.room
    rw [length_append, length_singleton] at room
    omega
  pending := by
    intro position bound later
    have longer : position < (history ++ [value]).length := by
      rw [length_append, length_singleton]
      omega
    rw [queue.pending position longer later]
    simp [bound]

end RingQueue

theorem toNat_ofNat_sub_ofNat (before : start ≤ stop) (near : stop < start + 2 ^ 32) :
    (UInt32.ofNat stop - UInt32.ofNat start).toNat = stop - start := by
  rw [UInt32.toNat_sub, UInt32.toNat_ofNat', UInt32.toNat_ofNat']
  omega

theorem ofNat_eq_ofNat_iff (before : start ≤ stop) (near : stop < start + 2 ^ 32) :
    UInt32.ofNat start = UInt32.ofNat stop ↔ start = stop := by
  rw [← UInt32.toNat_inj, UInt32.toNat_ofNat', UInt32.toNat_ofNat']
  omega

theorem slot_ofNat (divides : size ∣ 2 ^ 32) (count : Nat) :
    Fin.ofNat size (UInt32.ofNat count).toNat = Fin.ofNat size count := by
  apply Fin.ext
  rw [Fin.val_ofNat, Fin.val_ofNat, UInt32.toNat_ofNat', Nat.mod_mod_of_dvd _ divides]

theorem ofNat_succ_sub_one (count : Nat) : UInt32.ofNat (count + 1) - 1 = UInt32.ofNat count := by
  rw [UInt32.ofNat_add]
  exact UInt32.add_sub_cancel _ _

end StraceXv6.Data
