import Mathlib.Algebra.Ring.Int.Defs
import Mathlib.Algebra.Ring.Nat
import Mathlib.Data.List.Basic

namespace StraceXv6.Data

theorem toInt_eq (n : Int32) :
    n.toInt = if n.toUInt32.toNat < 2 ^ 31 then (n.toUInt32.toNat : Int)
      else n.toUInt32.toNat - 2 ^ 32 := by
  have value : n.toInt =
      if 2 * n.toUInt32.toNat < 2 ^ 32 then (n.toUInt32.toNat : Int)
      else n.toUInt32.toNat - (2 ^ 32 : Nat) :=
    BitVec.toInt_eq_toNat_cond n.toBitVec
  rw [value]
  split
  next => rw [if_pos (by omega)]
  next => rw [if_neg (by omega)]; rfl

variable {n : Int32}

theorem toNat_toUInt32 (nonneg : 0 ≤ n.toInt) : (n.toUInt32.toNat : Int) = n.toInt := by
  have value := toInt_eq n
  have limit := n.toUInt32.toNat_lt
  split at value
  next => exact value.symm
  next => omega

theorem toNat_neg_toUInt32 (negative : n.toInt < 0) : ((-n).toUInt32.toNat : Int) = -n.toInt := by
  have value := toInt_eq n
  have limit := n.toUInt32.toNat_lt
  have opposite : (-n).toUInt32.toNat = (2 ^ 32 - n.toUInt32.toNat) % 2 ^ 32 :=
    BitVec.toNat_neg n.toBitVec
  rw [opposite]
  split at value
  next => omega
  next => omega

theorem toInt_toInt32 {n : UInt32} (small : n.toNat < 2 ^ 31) : n.toInt32.toInt = n.toNat := by
  have value := toInt_eq n.toInt32
  rw [UInt32.toUInt32_toInt32, if_pos small] at value
  exact value

end StraceXv6.Data
