import StraceXv6.Data.Decimal
import StraceXv6.Data.Numeral
import Mathlib.Tactic.IntervalCases

namespace StraceXv6.Kernel

open List Data

/-! The text helpers of `kernel/strace.c`, linked into both the kernel and the
shell. -/

def strcat (dest src : List UInt8) : List UInt8 :=
  overlay (cstr dest ++ cstr src ++ [0]) dest

@[simp] theorem cstr_strcat (dest src : List UInt8) :
    cstr (strcat dest src) = cstr dest ++ cstr src := by
  apply cstr_overlay_nul
  rw [mem_append]
  rintro (member | member)
  · exact noNul_cstr dest member
  · exact noNul_cstr src member

private def streqLoop : Nat → List UInt8 → List UInt8 → Bool
  | 0, _, _ => true
  | count + 1, string1, string2 =>
    if string1.headD 0 ≠ string2.headD 0 then false
    else if string1.headD 0 = '\n'.toUInt8 then true
    else streqLoop count string1.tail string2.tail

/-- The comparison stops at the length of the second string. -/
def streq (string1 string2 : List UInt8) : Bool :=
  streqLoop (cstr string2).length string1 string2

variable {string1 string2 : List UInt8} {base num rem : Int32} {fuel : Nat}

private theorem streqLoop_eq_isPrefixOf (noNul : (0 : UInt8) ∉ string2)
    (noNewline : '\n'.toUInt8 ∉ string1 ∨ '\n'.toUInt8 ∉ string2) :
    streqLoop string2.length string1 string2 = string2.isPrefixOf string1 := by
  induction string2 generalizing string1 with
  | nil => simp [streqLoop]
  | cons head tail induction =>
    simp only [mem_cons, not_or] at noNul noNewline
    cases string1 with
    | nil => simp [streqLoop, noNul.1]
    | cons first rest =>
      simp only [mem_cons, not_or] at noNewline
      by_cases same : head = first
      · subst same
        have differs : head ≠ '\n'.toUInt8 := by
          rcases noNewline with noNewline | noNewline <;>
            exact fun equal => noNewline.1 equal.symm
        simpa [streqLoop, List.isPrefixOf, differs] using
          @induction rest noNul.2 (noNewline.imp And.right And.right)
      · simp [streqLoop, List.isPrefixOf, same, Ne.symm same]

theorem streq_eq_isPrefixOf (noNul : (0 : UInt8) ∉ string2)
    (noNewline : '\n'.toUInt8 ∉ string1 ∨ '\n'.toUInt8 ∉ string2) :
    streq string1 string2 = string2.isPrefixOf string1 := by
  rw [streq, cstr_eq_self noNul]
  exact streqLoop_eq_isPrefixOf noNul noNewline

private def reverseLoop : Nat → Nat → Nat → List UInt8 → List UInt8
  | 0, _, _, str => str
  | fuel + 1, start, stop, str =>
    if start < stop then
      reverseLoop fuel (start + 1) (stop - 1)
        ((str.set start (str.getD stop 0)).set stop (str.getD start 0))
    else str

def reverse (str : List UInt8) (length : Nat) : List UInt8 :=
  reverseLoop length 0 (length - 1) str

private theorem reverseLoop_getElem? (fuel start stop : Nat) (str : List UInt8)
    (enough : stop < start + fuel) (inside : stop < str.length) (index : Nat) :
    (reverseLoop fuel start stop str)[index]? =
      if start ≤ index ∧ index ≤ stop then str[start + stop - index]?
      else str[index]? := by
  induction fuel generalizing start stop str with
  | zero =>
    rw [reverseLoop, if_neg (by omega)]
  | succ fuel induction =>
    rw [reverseLoop]
    by_cases crossed : start < stop
    · rw [if_pos crossed, induction (start + 1) (stop - 1) _ (by omega)
        (by simp only [length_set]; omega)]
      have low : str.getD start 0 = str.get ⟨start, by omega⟩ := by
        simp [show start < str.length by omega]
      have high : str.getD stop 0 = str.get ⟨stop, inside⟩ := by
        simp [inside]
      rw [low, high]
      by_cases first : index = start
      · subst first
        rw [if_neg (by omega), if_pos (by omega)]
        simp [show stop ≠ index by omega,
          show index < str.length by omega, inside]
      · by_cases last : index = stop
        · subst last
          rw [if_neg (by omega), if_pos (by omega)]
          simp [inside, show start < str.length by omega]
        · by_cases between : start ≤ index ∧ index ≤ stop
          · rw [if_pos (by omega), if_pos between]
            rw [show start + 1 + (stop - 1) - index = start + stop - index by omega]
            simp [show stop ≠ start + stop - index by omega,
              show start ≠ start + stop - index by omega]
          · rw [if_neg (by omega), if_neg between]
            simp [Ne.symm first, Ne.symm last]
    · rw [if_neg crossed]
      by_cases middle : start ≤ index ∧ index ≤ stop
      · rw [if_pos middle]
        congr 1
        omega
      · rw [if_neg middle]

theorem reverse_eq_reverse (str : List UInt8) :
    reverse str str.length = str.reverse := by
  cases str with
  | nil => rfl
  | cons head tail =>
    apply ext_getElem?
    intro index
    rw [reverse, reverseLoop_getElem? _ _ _ _ (by simp) (by simp)]
    by_cases inside : index < (head :: tail).length
    · rw [List.getElem?_reverse inside, if_pos (by omega), Nat.zero_add]
    · rw [if_neg (by simp only [length_cons] at inside ⊢; omega)]
      rw [List.getElem?_eq_none (by omega), List.getElem?_eq_none (by
        rw [length_reverse]
        omega)]

/-- `(rem > 9) ? (rem - 10) + 'a' : rem + '0'`, stored into a `char`. -/
def itoaDigit (rem : Int32) : UInt8 :=
  if rem > 9 then (rem - 10 + 97).toUInt32.toUInt8
  else (rem + 48).toUInt32.toUInt8

/-- A 32-bit number has at most 32 digits in any base from 2 on. -/
def itoaDigits (base : Int32) : Nat → Int32 → List UInt8
  | 0, _ => []
  | fuel + 1, num =>
    if num = 0 then []
    else itoaDigit (num % base) :: itoaDigits base fuel (num / base)

def itoa (num base : Int32) : List UInt8 :=
  if num = 0 then lit "0"
  else
    let isNegative := num < 0 ∧ base = 10
    let digits := itoaDigits base 32 (if isNegative then -num else num)
    let str := if isNegative then digits ++ lit "-" else digits
    reverse str str.length

theorem natAbs_toInt_div_lt (large : 2 ≤ base.toInt) (small : num.toInt.natAbs < 2 ^ (fuel + 1)) :
    (num / base).toInt.natAbs < 2 ^ fuel := by
  have quotient : (num.toInt.tdiv base.toInt).natAbs ≤ num.toInt.natAbs / 2 := by
    rw [Int.natAbs_tdiv]
    exact Nat.div_le_div_left (by omega) (by decide)
  have lower := num.le_toInt
  have upper := num.toInt_lt
  rw [Int32.toInt_div, Int.bmod_eq_of_le (by omega) (by omega)]
  rw [Nat.pow_succ] at small
  omega

theorem length_itoaDigits_le (base num : Int32) (fuel : Nat) :
    (itoaDigits base fuel num).length ≤ fuel := by
  induction fuel generalizing num with
  | zero => simp [itoaDigits]
  | succ fuel induction =>
    rw [itoaDigits]
    split
    · simp
    · exact Nat.succ_le_succ (induction _)

theorem length_itoa_le (num base : Int32) : (itoa num base).length ≤ 33 := by
  simp only [itoa]
  split
  · decide
  · rw [reverse_eq_reverse, length_reverse]
    by_cases negative : num < 0 ∧ base = 10
    · rw [if_pos negative, if_pos negative, length_append]
      have digits := length_itoaDigits_le base (-num) 32
      have sign : (lit "-").length = 1 := rfl
      omega
    · rw [if_neg negative, if_neg negative]
      exact Nat.le_succ_of_le (length_itoaDigits_le base num 32)

private theorem itoaDigit_ne_zero (low : -10 < rem.toInt) (high : rem.toInt < 10) :
    itoaDigit rem ≠ 0 := by
  have value : rem = Int32.ofInt rem.toInt := by simp
  rw [value]
  generalize rem.toInt = small at low high
  interval_cases small <;> decide

private theorem noNul_itoaDigits_ten (num : Int32) (fuel : Nat) :
    (0 : UInt8) ∉ itoaDigits 10 fuel num := by
  induction fuel generalizing num with
  | zero => simp [itoaDigits]
  | succ fuel induction =>
    rw [itoaDigits]
    split
    · simp
    · have remainder : (num % 10).toInt = num.toInt.tmod 10 := Int32.toInt_mod _ _
      have low : -10 < (num % 10).toInt := by
        rw [remainder]
        have := Int.lt_tmod_of_pos num.toInt (show (0 : Int) < 10 by decide)
        omega
      have high : (num % 10).toInt < 10 := by
        rw [remainder]
        exact Int.tmod_lt_of_pos _ (by decide)
      simp only [mem_cons, not_or]
      exact ⟨(itoaDigit_ne_zero low high).symm, induction _⟩

theorem noNul_itoa_ten (num : Int32) : (0 : UInt8) ∉ itoa num 10 := by
  simp only [itoa]
  split
  · decide
  · rw [reverse_eq_reverse, mem_reverse]
    split
    · rw [mem_append]
      rintro (member | member)
      · exact noNul_itoaDigits_ten _ _ member
      · exact absurd member (by decide)
    · exact noNul_itoaDigits_ten _ _

theorem itoaDigit_eq {digit : Nat} (small : digit < 36) (value : rem.toInt = digit) :
    itoaDigit rem = digitChar digit := by
  have same : rem = Int32.ofInt digit := by
    rw [← value]
    simp
  rw [same]
  interval_cases digit <;> decide

theorem itoaDigits_eq (large : 2 ≤ base.toInt) (limit : base.toInt ≤ 36) (nonneg : 0 ≤ num.toInt)
    (enough : num.toInt.natAbs < 2 ^ fuel) :
    itoaDigits base fuel num =
      (Nat.digits base.toInt.toNat num.toInt.natAbs).map digitChar := by
  induction fuel generalizing num with
  | zero =>
    have zero : num.toInt.natAbs = 0 := by omega
    rw [zero, Nat.digits_zero]
    rfl
  | succ fuel induction =>
    have upper := num.toInt_lt
    have smaller := natAbs_toInt_div_lt large enough
    have quotient : (num / base).toInt = num.toInt / base.toInt := by
      have bound := Int.ediv_le_self base.toInt nonneg
      have positive := Int.ediv_nonneg nonneg (by omega : 0 ≤ base.toInt)
      rw [Int32.toInt_div, Int.tdiv_eq_ediv_of_nonneg nonneg]
      exact Int.bmod_eq_of_le (by omega) (by omega)
    have remainder : (num % base).toInt = (num.toInt.natAbs % base.toInt.toNat : Nat) := by
      rw [Int32.toInt_mod, Int.tmod_eq_emod_of_nonneg nonneg, Int.natCast_emod]
      congr 1 <;> omega
    rw [itoaDigits]
    by_cases zero : num = 0
    · rw [if_pos zero, zero]
      change [] = List.map digitChar (Nat.digits base.toInt.toNat 0)
      rw [Nat.digits_zero, map_nil]
    · have nonzero : num.toInt ≠ 0 := fun same => zero (Int32.toInt_inj.mp same)
      have digit := Nat.mod_lt num.toInt.natAbs (by omega : 0 < base.toInt.toNat)
      have positive := Int.ediv_nonneg nonneg (by omega : 0 ≤ base.toInt)
      have rest : (num / base).toInt.natAbs = num.toInt.natAbs / base.toInt.toNat := by
        rw [quotient, Int.natAbs_ediv_of_nonneg nonneg]
        congr 1
        omega
      rw [if_neg zero, itoaDigit_eq (by omega) remainder,
        induction (by rw [quotient]; exact positive) smaller, rest,
        Nat.digits_eq_cons_digits_div (n := num.toInt.natAbs) (by omega) (by omega)]
      rfl

private theorem itoaDigits_ten (nonneg : 0 ≤ num.toInt) :
    itoaDigits 10 32 num = digitBytes num.toInt.natAbs := by
  have upper := num.toInt_lt
  rw [itoaDigits_eq (by decide) (by decide) nonneg (by omega)]
  refine map_congr_left fun digit isDigit => ?_
  have small : digit < 10 := Nat.digits_lt_base (by decide) isDigit
  rw [digitChar, if_pos small]
  rfl

/-- `itoa` writes the number, unless it is the one that has no negative. -/
theorem itoa_ten (least : num ≠ Int32.minValue) : itoa num 10 = decimal num.toInt := by
  have lower := num.le_toInt
  have upper := num.toInt_lt
  have sign : num < 0 ↔ num.toInt < 0 := Int32.lt_iff_toInt_lt
  simp only [itoa, and_true, decimal]
  by_cases zero : num = 0
  · rw [if_pos zero, zero]
    rfl
  · have nonzero : num.toInt ≠ 0 := fun same => zero (Int32.toInt_inj.mp same)
    rw [if_neg zero, if_neg nonzero, reverse_eq_reverse]
    by_cases negative : num.toInt < 0
    · have bound : num.toInt ≠ -2 ^ 31 := fun same => least (Int32.toInt_inj.mp same)
      have value : (-num).toInt = -num.toInt := by
        rw [Int32.toInt_neg]
        exact Int.bmod_eq_of_le (by omega) (by omega)
      rw [if_pos (sign.mpr negative), if_pos (sign.mpr negative), if_pos negative,
        itoaDigits_ten (by omega), value, Int.natAbs_neg, reverse_append]
      rfl
    · rw [if_neg (mt sign.mp negative), if_neg (mt sign.mp negative), if_neg negative,
        itoaDigits_ten (by omega)]

/-- For that one the loop has negative remainders, and writes bytes before `'0'`. -/
theorem itoa_ten_minValue : itoa Int32.minValue 10 = lit "-./,),(-*,(" := by
  decide +kernel

end StraceXv6.Kernel
