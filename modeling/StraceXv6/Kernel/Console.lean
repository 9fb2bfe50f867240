import Mathlib.Tactic.IntervalCases
import StraceXv6.Data.Decimal
import StraceXv6.Data.Signed

namespace StraceXv6.Kernel

open Data

/-! Formatted output to the console, as the bytes handed to `consputc`. -/

private def printintDigits (base : UInt32) : Nat → UInt32 → List UInt8
  | 0, _ => []
  | fuel + 1, x =>
    (lit "0123456789abcdef").getD (x % base).toNat 0 ::
      (if x / base ≠ 0 then printintDigits base fuel (x / base) else [])

def printint (xx base : Int32) (sign : Bool) : List UInt8 :=
  let negative := sign ∧ xx < 0
  let x := if negative then -xx else xx
  let buf := printintDigits base.toUInt32 32 x.toUInt32
  let buf := if negative then buf ++ lit "-" else buf
  buf.reverse

/-- One word of an argument list; a string pointer may be null. -/
inductive Word where
  | int (value : Int32)
  | str (text : Option (List UInt8))

def cprintf : List UInt8 → List Word → List UInt8
  | [], _ => []
  | [c], _ => if c = '%'.toUInt8 then [] else [c]
  | c :: d :: fmt, args =>
    if c ≠ '%'.toUInt8 then c :: cprintf (d :: fmt) args
    else if d = 'd'.toUInt8 then
      match args with
      | .int value :: args => printint value 10 true ++ cprintf fmt args
      | _ => []
    else if d = 'x'.toUInt8 ∨ d = 'p'.toUInt8 then
      match args with
      | .int value :: args => printint value 16 false ++ cprintf fmt args
      | _ => []
    else if d = 's'.toUInt8 then
      match args with
      | .str text :: args => text.getD (lit "(null)") ++ cprintf fmt args
      | _ => []
    else if d = '%'.toUInt8 then '%'.toUInt8 :: cprintf fmt args
    else '%'.toUInt8 :: d :: cprintf fmt args

example : cprintf (lit "%d %s: %x%%\n") [.int (-12), .str (some (lit "sh")), .int 255] =
    lit "-12 sh: ff%\n" := by decide

private theorem getD_digits {digit : Nat} (small : digit < 10) :
    (lit "0123456789abcdef").getD digit 0 = digitByte digit := by
  interval_cases digit <;> decide

private theorem printintDigits_ten {fuel : Nat} {x : UInt32} (enough : x.toNat < 10 ^ (fuel + 1)) :
    printintDigits 10 (fuel + 1) x =
      if x = 0 then lit "0" else digitBytes x.toNat := by
  have quotient : (x / 10).toNat = x.toNat / 10 := UInt32.toNat_div x 10
  have remainder : (x % 10).toNat = x.toNat % 10 := UInt32.toNat_mod x 10
  rw [printintDigits, remainder, getD_digits (Nat.mod_lt _ (by decide))]
  by_cases zero : x = 0
  · subst zero
    rfl
  · have nonzero : x.toNat ≠ 0 := fun same => zero (UInt32.toNat_inj.mp same)
    rw [if_neg zero, digitBytes_of_ne_zero nonzero]
    congr 1
    by_cases last : x / 10 = 0
    · rw [if_neg (not_not.mpr last), ← quotient, last]
      rfl
    · rw [if_pos last]
      cases fuel with
      | zero =>
        refine absurd (UInt32.toNat_inj.mp ?_) last
        rw [quotient]
        exact Nat.div_eq_of_lt enough
      | succ fuel =>
        rw [Nat.pow_succ] at enough
        rw [printintDigits_ten (by omega), if_neg last, quotient]

/-- `%d` prints the number, the least one too. -/
theorem printint_ten (xx : Int32) : printint xx 10 true = decimal xx.toInt := by
  have lower := xx.le_toInt
  have upper := xx.toInt_lt
  have sign : xx < 0 ↔ xx.toInt < 0 := Int32.lt_iff_toInt_lt
  have base : (10 : Int32).toUInt32 = 10 := rfl
  simp only [printint, true_and, base, decimal]
  by_cases negative : xx.toInt < 0
  · have value : (-xx).toUInt32.toNat = xx.toInt.natAbs := by
      have opposite := toNat_neg_toUInt32 negative
      omega
    have nonzero : (-xx).toUInt32 ≠ 0 := by
      intro zero
      rw [zero] at value
      change 0 = _ at value
      omega
    rw [if_pos (sign.mpr negative), if_pos (sign.mpr negative), if_neg (by omega),
      if_pos negative, printintDigits_ten (by omega), if_neg nonzero, value, List.reverse_append]
    rfl
  · have value : xx.toUInt32.toNat = xx.toInt.natAbs := by
      have same := toNat_toUInt32 (Int.not_lt.mp negative)
      omega
    rw [if_neg (mt sign.mp negative), if_neg (mt sign.mp negative),
      printintDigits_ten (by omega), value]
    by_cases zero : xx.toInt = 0
    · have isZero : xx.toUInt32 = 0 := by
        apply UInt32.toNat_inj.mp
        rw [value, zero]
        rfl
      rw [if_pos isZero, if_pos zero]
      rfl
    · have nonzero : xx.toUInt32 ≠ 0 := by
        intro isZero
        rw [isZero] at value
        change 0 = _ at value
        omega
      rw [if_neg nonzero, if_neg zero, if_neg negative]

end StraceXv6.Kernel
