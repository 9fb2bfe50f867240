import StraceXv6.Data.Signed
import StraceXv6.Kernel.Strace

namespace StraceXv6.Kernel

open Data

/-- The text of a number: base 10 has a sign, the numbers of the other bases are unsigned. -/
def numberText (base : Nat) (num : Int32) : List UInt8 :=
  if base = 10 ∧ num < 0 then '-'.toUInt8 :: numeral base num.toInt.natAbs
  else numeral base num.toUInt32.toNat

def numberOf (base : Nat) (text : List UInt8) : Int32 :=
  match text with
  | [] => 0
  | char :: rest =>
    if base = 10 ∧ char = '-'.toUInt8 then Int32.ofInt (-numeralValue base rest)
    else (UInt32.ofNat (numeralValue base text)).toInt32

theorem toNat_itoaDigit_lt {rem : Int32} (low : -36 < rem.toInt) (high : rem.toInt < 0) :
    (itoaDigit rem).toNat < 48 := by
  have value : rem = Int32.ofInt rem.toInt := by simp
  rw [value]
  generalize rem.toInt = small at low high
  interval_cases small <;> decide

section

variable {base : Int32} (large : 2 ≤ base.toInt) (limit : base.toInt ≤ 36)

include large limit

theorem numberOf_numberText (num : Int32) :
    numberOf base.toInt.toNat (numberText base.toInt.toNat num) = num := by
  have value : ∀ n, numeralValue base.toInt.toNat (numeral base.toInt.toNat n) = n :=
    numeralValue_numeral (by omega) (by omega)
  rw [numberText]
  split
  next negative =>
    have sign : num.toInt < 0 := Int32.lt_iff_toInt_lt.mp negative.2
    rw [numberOf, if_pos ⟨negative.1, rfl⟩, value,
      show -(num.toInt.natAbs : Int) = num.toInt by omega, Int32.ofInt_toInt]
  next =>
    cases text : numeral base.toInt.toNat num.toUInt32.toNat with
    | nil => exact absurd text (numeral_ne_nil (by omega) (by omega) _)
    | cons char rest =>
      have member : char ∈ numeral base.toInt.toNat num.toUInt32.toNat := by
        rw [text]
        exact List.mem_cons_self
      have digit : 48 ≤ char.toNat := le_toNat_of_mem_numeral (by omega) (by omega) member
      have unsigned : ¬(base.toInt.toNat = 10 ∧ char = '-'.toUInt8) := by
        rintro ⟨-, rfl⟩
        exact absurd digit (by decide)
      rw [numberOf, if_neg unsigned, ← text, value, UInt32.ofNat_toNat]
      rfl

/-- A negative number has a digit before `'0'`, its most significant one. -/
theorem exists_mem_itoaDigits_lt {fuel : Nat} {num : Int32} (negative : num.toInt < 0)
    (enough : num.toInt.natAbs < 2 ^ fuel) : ∃ char ∈ itoaDigits base fuel num, char.toNat < 48 := by
  induction fuel generalizing num with
  | zero => omega
  | succ fuel induction =>
    have lower := num.le_toInt
    have nonzero : num ≠ 0 := by
      rintro rfl
      cases negative
    have smaller := natAbs_toInt_div_lt large enough
    have nonneg := Int.tdiv_nonneg (show 0 ≤ -num.toInt by omega) (show 0 ≤ base.toInt by omega)
    rw [Int.neg_tdiv] at nonneg
    have bound := Int.natAbs_tdiv_le_natAbs num.toInt base.toInt
    have quotient : (num / base).toInt = num.toInt.tdiv base.toInt := by
      rw [Int32.toInt_div]
      exact Int.bmod_eq_of_le (by omega) (by omega)
    have remainder : (num % base).toInt = num.toInt.tmod base.toInt := Int32.toInt_mod _ _
    rw [itoaDigits, if_neg nonzero]
    by_cases more : (num / base).toInt < 0
    · obtain ⟨char, member, small⟩ := induction more smaller
      exact ⟨char, List.mem_cons_of_mem _ member, small⟩
    · have zero : num.toInt.tdiv base.toInt = 0 := by omega
      have euclid := Int.mul_tdiv_add_tmod num.toInt base.toInt
      have low := Int.lt_tmod_of_pos num.toInt (show 0 < base.toInt by omega)
      rw [zero, Int.mul_zero, Int.zero_add] at euclid
      exact ⟨_, List.mem_cons_self, toNat_itoaDigit_lt (by omega) (by omega)⟩

theorem reverse_itoaDigits {num : Int32} (positive : 0 < num.toInt) :
    (itoaDigits base 32 num).reverse = numeral base.toInt.toNat num.toInt.natAbs := by
  have upper := num.toInt_lt
  rw [itoaDigits_eq large limit (by omega) (by omega), numeral, if_neg (by omega)]

end

theorem itoa_of_ne_zero {num base : Int32} (nonzero : num ≠ 0) :
    itoa num base = if num < 0 ∧ base = 10 then '-'.toUInt8 :: (itoaDigits base 32 (-num)).reverse
      else (itoaDigits base 32 num).reverse := by
  simp only [itoa]
  rw [if_neg nonzero, reverse_eq_reverse]
  split
  · rw [List.reverse_append]
    rfl
  · rfl

/-- With a sign only in base 10, no other negative number has its text, and the least number
has no negation. -/
theorem itoa_eq_numberText_iff {num base : Int32} (large : 2 ≤ base.toInt)
    (limit : base.toInt ≤ 36) :
    itoa num base = numberText base.toInt.toNat num ∧
        numberOf base.toInt.toNat (itoa num base) = num ↔
      0 ≤ num ∨ base = 10 ∧ num ≠ Int32.minValue := by
  have lower := num.le_toInt
  constructor
  · rintro ⟨same, -⟩
    by_contra other
    obtain ⟨negative, least⟩ := not_or.mp other
    have sign : num.toInt < 0 := by
      rw [Int32.le_iff_toInt_le] at negative
      exact not_le.mp negative
    by_cases ten : base = 10
    · obtain rfl : num = Int32.minValue := not_not.mp fun more => least ⟨ten, more⟩
      rw [ten] at same
      cases same
    · have nonzero : num ≠ 0 := by
        rintro rfl
        cases sign
      have unsigned : base.toInt.toNat ≠ 10 := fun value =>
        ten (Int32.toInt_inj.mp (show base.toInt = 10 by omega))
      obtain ⟨char, member, small⟩ : ∃ char ∈ itoaDigits base 32 num, char.toNat < 48 :=
        exists_mem_itoaDigits_lt large limit sign (by omega)
      rw [itoa_of_ne_zero nonzero, if_neg fun signed => ten signed.2, numberText,
        if_neg fun signed => unsigned signed.1] at same
      rw [← List.mem_reverse, same] at member
      have digit := le_toNat_of_mem_numeral (by omega) (by omega) member
      omega
  · intro condition
    suffices same : itoa num base = numberText base.toInt.toNat num by
      rw [same]
      exact ⟨rfl, numberOf_numberText large limit num⟩
    by_cases zero : num = 0
    · rw [zero, numberText, if_neg (by simp)]
      rfl
    have nonzero : num.toInt ≠ 0 := fun same => zero (Int32.toInt_inj.mp same)
    rw [itoa_of_ne_zero zero, numberText]
    rcases le_or_gt 0 num.toInt with nonneg | negative
    · have unsigned : ¬num < 0 := by
        rw [Int32.lt_iff_toInt_lt]
        exact not_lt.mpr nonneg
      have value : num.toUInt32.toNat = num.toInt.natAbs := by
        have same := toNat_toUInt32 nonneg
        omega
      rw [if_neg fun signed => unsigned signed.1, if_neg fun signed => unsigned signed.2,
        reverse_itoaDigits large limit (by omega), value]
    · have signed : num < 0 := Int32.lt_iff_toInt_lt.mpr negative
      have absent : ¬0 ≤ num := by
        rw [Int32.le_iff_toInt_le]
        exact not_le.mpr negative
      obtain ⟨rfl, more⟩ := condition.resolve_left absent
      have least : num.toInt ≠ -2 ^ 31 := fun same => more (Int32.toInt_inj.mp same)
      have opposite : (-num).toInt = -num.toInt := by
        rw [Int32.toInt_neg]
        exact Int.bmod_eq_of_le (by omega) (by omega)
      rw [if_pos ⟨signed, rfl⟩, if_pos ⟨rfl, signed⟩,
        reverse_itoaDigits large limit (by omega), opposite, Int.natAbs_neg]

theorem itoa_hex_negative : itoa (-1) 16 = lit "/" ∧ numberText 16 (-1) = lit "ffffffff" ∧
    numberOf 16 (itoa (-1) 16) ≠ -1 := by
  refine ⟨by decide, ?_, by decide⟩
  decide

theorem itoa_hex_byte : 2 ≤ (16 : Int32).toInt ∧ (16 : Int32).toInt ≤ 36 ∧
    (itoa 255 16 = numberText 16 255 ∧ numberOf 16 (itoa 255 16) = 255) :=
  ⟨by decide, by decide, (itoa_eq_numberText_iff (by decide) (by decide)).mpr (.inl (by decide))⟩

end StraceXv6.Kernel
