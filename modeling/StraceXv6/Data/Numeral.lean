import Mathlib.Data.Nat.Digits.Defs
import StraceXv6.Data.CString

namespace StraceXv6.Data

open List

def digitChar (digit : Nat) : UInt8 :=
  if digit < 10 then .ofNat (48 + digit) else .ofNat (97 + (digit - 10))

def numeral (base n : Nat) : List UInt8 :=
  if n = 0 then lit "0" else ((Nat.digits base n).map digitChar).reverse

def charDigit (char : UInt8) : Nat :=
  if char.toNat < 58 then char.toNat - 48 else char.toNat - 97 + 10

def numeralValue (base : Nat) (text : List UInt8) : Nat :=
  Nat.ofDigits base (text.reverse.map charDigit)

variable {digit : Nat}

theorem toNat_digitChar (small : digit < 36) :
    (digitChar digit).toNat = if digit < 10 then 48 + digit else 97 + (digit - 10) := by
  unfold digitChar
  split
  next => rw [UInt8.toNat_ofNat']; omega
  next => rw [UInt8.toNat_ofNat']; omega

theorem charDigit_digitChar (small : digit < 36) : charDigit (digitChar digit) = digit := by
  rw [charDigit, toNat_digitChar small]
  split
  next => split <;> omega
  next => split <;> omega

section

variable {base : Nat} (large : 2 ≤ base) (limit : base ≤ 36)

include large limit

theorem le_toNat_of_mem_numeral {n : Nat} {char : UInt8} (member : char ∈ numeral base n) :
    48 ≤ char.toNat := by
  rw [numeral] at member
  split at member
  next =>
    obtain rfl := mem_singleton.mp member
    decide
  next =>
    obtain ⟨digit, isDigit, rfl⟩ := mem_map.mp (mem_reverse.mp member)
    have small := Nat.digits_lt_base (by omega) isDigit
    rw [toNat_digitChar (by omega)]
    split <;> omega

theorem numeralValue_numeral (n : Nat) : numeralValue base (numeral base n) = n := by
  rw [numeral]
  split
  next zero =>
    rw [zero]
    rfl
  next =>
    have digits : ((Nat.digits base n).map digitChar).map charDigit = Nat.digits base n := by
      rw [map_map]
      refine (map_congr_left fun digit isDigit => ?_).trans (map_id _)
      have small := Nat.digits_lt_base (by omega) isDigit
      exact charDigit_digitChar (by omega)
    rw [numeralValue, reverse_reverse, digits, Nat.ofDigits_digits]

theorem numeral_ne_nil (n : Nat) : numeral base n ≠ [] := by
  rw [numeral]
  split
  next => decide
  next nonzero =>
    rw [Nat.digits_eq_cons_digits_div (by omega) nonzero]
    simp

end

end StraceXv6.Data
