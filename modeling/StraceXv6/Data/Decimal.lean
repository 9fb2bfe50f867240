import Mathlib.Data.Nat.Digits.Defs
import StraceXv6.Data.CString

namespace StraceXv6.Data

open List

def digitByte (digit : Nat) : UInt8 := .ofNat (48 + digit)

def digitBytes (n : Nat) : List UInt8 := (Nat.digits 10 n).map digitByte

def decimal (n : Int) : List UInt8 :=
  if n = 0 then lit "0"
  else if n < 0 then '-'.toUInt8 :: (digitBytes n.natAbs).reverse
  else (digitBytes n.natAbs).reverse

def digitsValue (text : List UInt8) : Nat :=
  Nat.ofDigits 10 (text.reverse.map fun byte => byte.toNat - 48)

def decimalValue : List UInt8 → Int
  | [] => 0
  | byte :: rest =>
    if byte = '-'.toUInt8 then -(digitsValue rest : Int) else digitsValue (byte :: rest)

variable {n : Nat} {byte : UInt8}

theorem digitBytes_of_ne_zero (nonzero : n ≠ 0) :
    digitBytes n = digitByte (n % 10) :: digitBytes (n / 10) := by
  rw [digitBytes, Nat.digits_eq_cons_digits_div (by decide) nonzero]
  rfl

theorem digitBytes_ne_nil (nonzero : n ≠ 0) : digitBytes n ≠ [] := by
  rw [digitBytes_of_ne_zero nonzero]
  exact cons_ne_nil _ _

theorem toNat_digitByte {digit : Nat} (small : digit < 10) :
    (digitByte digit).toNat = 48 + digit := by
  rw [digitByte, UInt8.toNat_ofNat']
  omega

theorem toNat_of_mem_digitBytes (member : byte ∈ digitBytes n) :
    48 ≤ byte.toNat ∧ byte.toNat ≤ 57 := by
  obtain ⟨digit, isDigit, rfl⟩ := mem_map.mp member
  have small := Nat.digits_lt_base (by decide) isDigit
  rw [toNat_digitByte small]
  omega

theorem map_digitBytes (n : Nat) :
    (digitBytes n).map (fun byte => byte.toNat - 48) = Nat.digits 10 n := by
  rw [digitBytes, map_map]
  refine (map_congr_left fun digit isDigit => ?_).trans (map_id _)
  change (digitByte digit).toNat - 48 = digit
  rw [toNat_digitByte (Nat.digits_lt_base (by decide) isDigit)]
  omega

theorem toNat_of_mem_decimal {n : Int} (member : byte ∈ decimal n) :
    byte = '-'.toUInt8 ∨ 48 ≤ byte.toNat ∧ byte.toNat ≤ 57 := by
  rw [decimal] at member
  split at member
  next =>
    obtain rfl := mem_singleton.mp member
    decide
  next =>
    split at member
    next =>
      rcases mem_cons.mp member with rfl | digit
      · exact .inl rfl
      · exact .inr (toNat_of_mem_digitBytes (mem_reverse.mp digit))
    next => exact .inr (toNat_of_mem_digitBytes (mem_reverse.mp member))

theorem digitsValue_digitBytes (n : Nat) : digitsValue (digitBytes n).reverse = n := by
  rw [digitsValue, reverse_reverse, map_digitBytes, Nat.ofDigits_digits]

theorem decimalValue_decimal (n : Int) : decimalValue (decimal n) = n := by
  rw [decimal]
  split
  next zero => rw [zero]; decide
  next nonzero =>
    split
    next negative =>
      rw [decimalValue, if_pos rfl, digitsValue_digitBytes]
      omega
    next positive =>
      have value := digitsValue_digitBytes n.natAbs
      have bytes : ∀ byte ∈ (digitBytes n.natAbs).reverse, byte ≠ '-'.toUInt8 := by
        rintro byte member rfl
        exact absurd (toNat_of_mem_digitBytes (mem_reverse.mp member)).1 (by decide)
      cases text : (digitBytes n.natAbs).reverse with
      | nil => exact absurd (reverse_eq_nil_iff.mp text) (digitBytes_ne_nil (by omega))
      | cons byte rest =>
        rw [text] at value bytes
        rw [decimalValue, if_neg (bytes byte mem_cons_self), value]
        omega

theorem decimal_injective : Function.Injective decimal :=
  Function.LeftInverse.injective decimalValue_decimal

end StraceXv6.Data
