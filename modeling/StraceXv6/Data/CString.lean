import Mathlib.Data.List.Basic
import Mathlib.Data.List.TakeWhile

namespace StraceXv6.Data

open List

/-! Byte arrays read as NUL-terminated strings.  An array is the list of its
bytes, and whatever lies past the end of the list reads as NUL. -/

def lit (text : String) : List UInt8 := text.toList.map Char.toUInt8

def cstr (array : List UInt8) : List UInt8 := array.takeWhile (· ≠ 0)

def overlay (front array : List UInt8) : List UInt8 :=
  front ++ array.drop front.length

theorem noNul_cstr (array : List UInt8) : (0 : UInt8) ∉ cstr array := by
  intro member
  simpa using mem_takeWhile_imp member

variable {text field field' : List UInt8} {separator : UInt8}

theorem cstr_eq_self (noNul : (0 : UInt8) ∉ text) : cstr text = text := by
  apply takeWhile_eq_self_iff.mpr
  intro byte member
  have nonzero : byte ≠ 0 := fun equal => noNul (equal ▸ member)
  simpa using nonzero

theorem cstr_append_nul (noNul : (0 : UInt8) ∉ text) (rest : List UInt8) :
    cstr (text ++ 0 :: rest) = text := by
  have kept : ∀ byte ∈ text, (byte ≠ 0 : Bool) = true := by
    intro byte member
    have nonzero : byte ≠ 0 := fun equal => noNul (equal ▸ member)
    simpa using nonzero
  rw [cstr, takeWhile_append_of_pos kept]
  simp

theorem cstr_drop {array : List UInt8} {start stop : Nat} (ordered : start ≤ stop)
    (ends : array[stop]? = some 0)
    (noNul : (0 : UInt8) ∉ (array.drop start).take (stop - start)) :
    cstr (array.drop start) = (array.drop start).take (stop - start) := by
  obtain ⟨inside, last⟩ := List.getElem?_eq_some_iff.mp ends
  calc cstr (array.drop start)
      = cstr ((array.drop start).take (stop - start) ++ (array.drop start).drop (stop - start)) := by
        rw [take_append_drop]
    _ = cstr ((array.drop start).take (stop - start) ++ 0 :: array.drop (stop + 1)) := by
        rw [drop_drop, Nat.add_sub_cancel' ordered, drop_eq_getElem_cons inside, last]
    _ = (array.drop start).take (stop - start) := cstr_append_nul noNul _

theorem cstr_replicate_nul (count : Nat) :
    cstr (List.replicate count 0) = [] := by
  cases count with
  | zero => rfl
  | succ count => simp [cstr, replicate_succ]

theorem cstr_overlay_replicate (noNul : (0 : UInt8) ∉ text) (size : Nat) :
    cstr (overlay text (List.replicate size 0)) = text := by
  rw [overlay, drop_replicate]
  cases size - text.length with
  | zero => simpa using cstr_eq_self noNul
  | succ rest =>
    rw [replicate_succ]
    exact cstr_append_nul noNul _

theorem cstr_overlay_nul (noNul : (0 : UInt8) ∉ text) (array : List UInt8) :
    cstr (overlay (text ++ [0]) array) = text := by
  rw [overlay, append_assoc, singleton_append]
  exact cstr_append_nul noNul _

theorem cstr_take_overlay_nul (noNul : (0 : UInt8) ∉ text) {count : Nat}
    (short : text.length < count) (array : List UInt8) :
    cstr ((overlay (text ++ [0]) array).take count) = text := by
  obtain ⟨rest, equal⟩ : ∃ rest, count = text.length + (rest + 1) :=
    ⟨count - text.length - 1, by omega⟩
  rw [overlay, append_assoc, singleton_append, equal,
    take_length_add_append, take_succ_cons]
  exact cstr_append_nul noNul _

theorem length_le_overlay (front array : List UInt8) :
    array.length ≤ (overlay front array).length := by
  simp only [overlay, length_append, length_drop]
  omega

theorem getElem?_overlay_of_le {front : List UInt8} {index : Nat}
    (behind : front.length ≤ index) (array : List UInt8) :
    (overlay front array)[index]? = array[index]? := by
  rw [overlay, List.getElem?_append_right behind, List.getElem?_drop,
    Nat.add_sub_cancel' behind]

theorem field_inj {rest rest' : List UInt8} (absent : separator ∉ field)
    (absent' : separator ∉ field')
    (same : field ++ separator :: rest = field' ++ separator :: rest') :
    field = field' ∧ rest = rest' := by
  induction field generalizing field' with
  | nil =>
    cases field' with
    | nil => exact ⟨rfl, (List.cons.inj same).2⟩
    | cons byte bytes => exact absurd (List.cons.inj same).1 (ne_of_not_mem_cons absent')
  | cons byte bytes induction =>
    cases field' with
    | nil => exact absurd (List.cons.inj same).1.symm (ne_of_not_mem_cons absent)
    | cons byte' bytes' =>
      obtain ⟨head, tail⟩ := List.cons.inj same
      obtain ⟨equal, rests⟩ := induction (not_mem_of_not_mem_cons absent)
        (not_mem_of_not_mem_cons absent') tail
      exact ⟨by rw [head, equal], rests⟩

theorem field_inj_right {before before' : List UInt8} (absent : separator ∉ field)
    (absent' : separator ∉ field')
    (same : before ++ separator :: field = before' ++ separator :: field') :
    before = before' ∧ field = field' := by
  have reversed := congrArg List.reverse same
  rw [reverse_append, reverse_append, reverse_cons, reverse_cons,
    append_assoc, append_assoc] at reversed
  obtain ⟨fields, befores⟩ := field_inj (mt mem_reverse.mp absent)
    (mt mem_reverse.mp absent') reversed
  exact ⟨reverse_injective befores, reverse_injective fields⟩

end StraceXv6.Data
